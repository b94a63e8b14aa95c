import Mathlib.Tactic.TFAE
import TarGuard.Proofs.Normalization

namespace TarGuard

open FileSystem

section Parting

variable {α : Type} {xs ys common as bs : List α}

structure Parting (xs ys common as bs : List α) : Prop where
  left  : xs = common ++ as
  right : ys = common ++ bs
  apart : ∀ a ∈ as.head?, a ∉ bs.head?

structure IsLongestCommonPrefix (common xs ys : List α) : Prop where
  left    : common <+: xs
  right   : common <+: ys
  longest : ∀ l, l <+: xs → l <+: ys → l.length ≤ common.length

theorem Parting.symm (h : Parting xs ys common as bs) : Parting ys xs common bs as :=
  ⟨h.right, h.left, fun b hb ha => h.apart b ha hb⟩

theorem Parting.isLongestCommonPrefix (h : Parting xs ys common as bs) :
    IsLongestCommonPrefix common xs ys where
  left := h.left ▸ List.prefix_append common as
  right := h.right ▸ List.prefix_append common bs
  longest := by
    intro l hx hy
    by_contra hlt
    rw [h.left] at hx
    rw [h.right] at hy
    -- Anything longer goes on behind `common`, in both lists with the same element.
    obtain ⟨rest, rfl⟩ :=
      List.prefix_of_prefix_length_le (List.prefix_append common as) hx (by omega)
    rw [List.prefix_append_right_inj] at hx hy
    cases rest with
    | nil => simp at hlt
    | cons a rest =>
      obtain ⟨_, rfl⟩ := hx
      obtain ⟨_, rfl⟩ := hy
      exact h.apart a rfl rfl

theorem parting_dropCommon [DecidableEq α] (xs ys : List α) :
    ∃ common, Parting xs ys common (Path.dropCommon xs ys).1 (Path.dropCommon xs ys).2 := by
  fun_induction Path.dropCommon xs ys with
  | case1 as a bs ih =>
    obtain ⟨common, h⟩ := ih
    exact ⟨a :: common, congrArg (a :: ·) h.left, congrArg (a :: ·) h.right, h.apart⟩
  | case2 a as b bs hne =>
    refine ⟨[], rfl, rfl, fun c ha hb => hne ?_⟩
    exact (Option.some.inj ha).trans (Option.some.inj hb).symm
  | case3 as bs h =>
    refine ⟨[], rfl, rfl, ?_⟩
    cases as with
    | nil => simp
    | cons a as =>
      cases bs with
      | nil => simp
      | cons b bs => exact absurd rfl (h a as b bs rfl)

end Parting

namespace Path

variable {p base way : Path} {names : List String} {l cs common rest climb descend : List Component}
  {c : Component}

section Steps

theorem IsTop.initial (h : IsTop l) (hcs : cs <+: l) : IsTop cs := by
  rcases h with rfl | ⟨n, rfl⟩
  case inl =>
    rcases List.prefix_cons_iff.mp hcs with rfl | ⟨t, rfl, ht⟩
    · exact .inr ⟨0, rfl⟩
    · rw [List.prefix_nil.mp ht]
      exact .inl rfl
  case inr => exact .inr ⟨_, (List.prefix_replicate_iff.mp hcs).2⟩

theorem foldl_step_initial (h : cs <+: p.normalComponents) : cs.foldl step [] = cs.reverse := by
  obtain ⟨top, names, ht, _, hp⟩ := p.exists_normalComponents
  obtain ⟨rest, hcs⟩ := h
  rw [hp] at hcs
  rcases List.append_eq_append_iff.mp hcs with ⟨t, rfl, _⟩ | ⟨t, rfl, hnames⟩
  case inl =>
    have hcs := ht.initial (List.prefix_append cs t)
    rw [hcs.foldl_step, hcs.reverse_eq]
  case inr =>
    obtain ⟨before, _, _, rfl, _⟩ := List.map_eq_append_iff.mp hnames
    exact foldl_step_spelled ht before

theorem head?_of_up_mem (hp : p.normalComponents = common ++ rest) (hup : .up ∈ rest) :
    rest.head? = some .up := by
  obtain ⟨top, names, ht, _, hn⟩ := p.exists_normalComponents
  rw [hn] at hp
  rcases List.append_eq_append_iff.mp hp with ⟨t, _, hnames⟩ | ⟨t, rfl, rfl⟩
  case inl =>
    have hmem : .up ∈ names.map Component.name := hnames ▸ List.mem_append_right t hup
    simp at hmem
  case inr =>
    have htop : .up ∈ t := by simpa using hup
    rcases ht with ht | ⟨n, ht⟩
    case inl =>
      have hmem := List.mem_append_right common htop
      rw [ht] at hmem
      simp at hmem
    case inr =>
      obtain ⟨_, _, hups⟩ := List.append_eq_replicate_iff.mp ht
      cases t with
      | nil => simp at htop
      | cons c t =>
        rw [(List.cons.inj hups).1]
        rfl

theorem foldl_step_ups (names : List String) (l : List Component) :
    (List.replicate names.length Component.up).foldl step (names.map Component.name ++ l) = l := by
  induction names with
  | nil => rfl
  | cons s names ih => exact ih

-- A step up that stands in the way is never taken back.
theorem count_up_step (hc : IsMove c) : l.count .up ≤ (step l c).count .up := by
  rcases hc with rfl | ⟨s, _, rfl⟩
  case inl =>
    unfold step
    split <;> simp_all
  case inr =>
    rw [step_name]
    exact List.count_le_count_cons

theorem count_up_foldl_step (hcs : ∀ c ∈ cs, IsMove c) :
    l.count .up ≤ (cs.foldl step l).count .up := by
  induction cs generalizing l with
  | nil => exact le_rfl
  | cons c cs ih =>
    have ⟨hc, hcs⟩ := List.forall_mem_cons.mp hcs
    exact (count_up_step hc).trans (ih hcs)

end Steps

section Way

theorem relativeTo?_eq_none_iff :
    p.relativeTo? base = none ↔ ¬ (base.IsAbsolute ↔ p.IsAbsolute) := by
  simp only [relativeTo?, isAbsolute_normalize]
  split
  case isTrue h => simp [h]
  case isFalse h => simp [h]

-- A way climbs as often as it has to and descends from where the two paths part.
structure IsWay (base p : Path) (common climb descend : List Component) (way : Path) : Prop where
  absolute : base.IsAbsolute ↔ p.IsAbsolute
  parting  : Parting base.normalComponents p.normalComponents common climb descend
  way_eq   : way = ofComponents (List.replicate climb.length .up ++ descend)

theorem exists_isWay (h : p.relativeTo? base = some way) :
    ∃ common climb descend, IsWay base p common climb descend way := by
  simp only [relativeTo?, isAbsolute_normalize, components_normalize] at h
  split at h
  case isFalse => cases h
  case isTrue ha =>
    obtain ⟨common, hc⟩ := parting_dropCommon base.normalComponents p.normalComponents
    refine ⟨common, _, _, ha, hc, ?_⟩
    rw [← List.map_const']
    exact (Option.some.inj h).symm

theorem isMove_of_parting (ha : base.IsAbsolute ↔ p.IsAbsolute)
    (h : Parting base.normalComponents p.normalComponents common climb descend) :
    ∀ c ∈ climb, IsMove c := by
  intro c hc
  by_cases hb : base.IsAbsolute
  case pos =>
    obtain ⟨names, ho, hn⟩ := normalComponents_of_isAbsolute hb
    obtain ⟨_, _, hm⟩ := normalComponents_of_isAbsolute (ha.mp hb)
    have hleft := hn.symm.trans h.left
    have hright := hm.symm.trans h.right
    cases common with
    | nil =>
      rw [List.nil_append] at hleft hright
      exact absurd (by rw [← hright]; rfl) (h.apart .root (by rw [← hleft]; rfl))
    | cons d common =>
      have hnames := (List.cons.inj hleft).2
      exact isMove_names ho c (hnames ▸ List.mem_append_right common hc)
  case neg =>
    obtain ⟨n, names, ho, hn⟩ := normalComponents_of_not_isAbsolute hb
    have hmem : c ∈ List.replicate n .up ++ names.map .name := by
      rw [← hn, h.left]
      exact List.mem_append_right common hc
    rcases List.mem_append.mp hmem with hup | hname
    · exact .inl (List.eq_of_mem_replicate hup)
    · exact isMove_names ho c hname

namespace IsWay

variable (h : IsWay base p common climb descend way)

include h

theorem isMove_climb : ∀ c ∈ climb, IsMove c :=
  isMove_of_parting h.absolute h.parting

theorem isMove_descend : ∀ c ∈ descend, IsMove c :=
  isMove_of_parting h.absolute.symm h.parting.symm

theorem isMove : ∀ c ∈ List.replicate climb.length .up ++ descend, IsMove c := by
  intro c hc
  rcases List.mem_append.mp hc with hup | hd
  · exact .inl (List.eq_of_mem_replicate hup)
  · exact h.isMove_descend c hd

theorem components_eq : way.components = List.replicate climb.length .up ++ descend := by
  rw [h.way_eq, components_ofComponents h.isMove]

theorem not_isAbsolute : ¬ way.IsAbsolute := by
  rw [isAbsolute_iff, h.components_eq]
  exact fun hr => (h.isMove _ (List.mem_of_mem_head? hr)).ne_root rfl

theorem up_notMem_descend (hup : .up ∈ climb) : .up ∉ descend := by
  intro hd
  have hclimb := head?_of_up_mem h.parting.left hup
  exact h.parting.apart .up hclimb (head?_of_up_mem h.parting.right hd)

theorem place_join_eq :
    (base.join way).place =
      descend.foldl step ((List.replicate climb.length .up).foldl step base.place) := by
  rw [place_join h.not_isAbsolute, h.components_eq, List.foldl_append]

theorem place_base : base.place = climb.reverse ++ common.reverse := by
  rw [← List.reverse_append, ← h.parting.left, normalComponents_eq_reverse, List.reverse_reverse]

theorem place_join_of_names (hup : .up ∉ climb) : (base.join way).place = p.place := by
  obtain ⟨names, _, hc⟩ := exists_names_of_no_up h.isMove_climb hup
  have hclimb : (List.replicate climb.length .up).foldl step base.place = common.reverse := by
    have hups := foldl_step_ups names.reverse common.reverse
    rw [h.place_base, hc, ← List.map_reverse, List.length_map, ← List.length_reverse]
    exact hups
  have hcommon : common <+: p.normalComponents :=
    h.parting.right ▸ List.prefix_append common descend
  rw [h.place_join_eq, hclimb, ← foldl_step_initial hcommon, ← List.foldl_append,
    ← h.parting.right, foldl_step_normalComponents]

theorem place_join_ne (hup : .up ∈ climb) : (base.join way).place ≠ p.place := by
  intro he
  have hbase : (base.place.count .up) ≤ (base.join way).place.count .up := by
    rw [place_join h.not_isAbsolute, h.components_eq]
    exact count_up_foldl_step h.isMove
  have hclimb : 0 < climb.count .up := List.count_pos_iff.mpr hup
  have hdescend : descend.count .up = 0 := List.count_eq_zero.mpr (h.up_notMem_descend hup)
  have hp : p.place.count .up = p.normalComponents.count .up := by
    rw [normalComponents_eq_reverse, List.count_reverse]
  rw [he, hp, h.parting.right, h.place_base, List.count_append, List.count_append,
    List.count_reverse, List.count_reverse] at hbase
  omega

theorem place_join_iff : (base.join way).place = p.place ↔ .up ∉ climb :=
  ⟨fun he hup => h.place_join_ne hup he, h.place_join_of_names⟩

theorem tfae_join :
    [(base.join way).normalize = p.normalize, (base.join way).normalize.Alike p.normalize,
      .up ∉ climb].TFAE := by
  tfae_have 1 → 2 := congrArg components
  tfae_have 2 → 1 := by
    intro ha
    rw [Alike, components_normalize, components_normalize] at ha
    exact congrArg ofComponents ha
  tfae_have 1 ↔ 3 := normalize_eq_iff.trans h.place_join_iff
  tfae_finish

end IsWay

-- The way from one path to another leads there just if no step up has to be climbed over, and so it
-- always does between absolute paths.
theorem relativeTo?_inverts_join (base p : Path) :
    (p.relativeTo? base = none ↔ ¬ (base.IsAbsolute ↔ p.IsAbsolute)) ∧
      (∀ way, p.relativeTo? base = some way → ¬ way.IsAbsolute ∧ ∃ common rest,
        IsLongestCommonPrefix common base.normalize.components p.normalize.components ∧
        base.normalize.components = common ++ rest ∧
        [(base.join way).normalize = p.normalize, (base.join way).normalize.Alike p.normalize,
          .up ∉ rest].TFAE) ∧
      (base.IsAbsolute → p.IsAbsolute →
        ∃ way, p.relativeTo? base = some way ∧ (base.join way).normalize = p.normalize) := by
  refine ⟨relativeTo?_eq_none_iff, ?_, ?_⟩
  · intro way h
    obtain ⟨common, climb, descend, hway⟩ := exists_isWay h
    rw [components_normalize, components_normalize]
    exact ⟨hway.not_isAbsolute, common, climb, hway.parting.isLongestCommonPrefix,
      hway.parting.left, hway.tfae_join⟩
  · intro hb hp
    cases h : p.relativeTo? base with
    | none => exact absurd (iff_of_true hb hp) (relativeTo?_eq_none_iff.mp h)
    | some way =>
      obtain ⟨common, climb, descend, hway⟩ := exists_isWay h
      refine ⟨way, rfl, hway.tfae_join.out 2 0 |>.mp fun hup => ?_⟩
      have hno := base.isNormal_normalize.no_up (base.isAbsolute_normalize.mpr hb)
      rw [components_normalize, hway.parting.left] at hno
      exact hno (List.mem_append_right common hup)

-- From `../a` the way to `x/b` does not lead there, since the name of `..` is not known.
theorem relativeTo?_inverts_join_up :
    relativeTo? ⟨"x/b"⟩ ⟨"../a"⟩ = some ⟨"../../x/b"⟩ ∧
      normalize (join ⟨"../a"⟩ ⟨"../../x/b"⟩) ≠ normalize ⟨"x/b"⟩ ∧
      Path.IsAbsolute ⟨"/a/./b"⟩ ∧ Path.IsAbsolute ⟨"/a/x/"⟩ ∧
      relativeTo? ⟨"/a/x/"⟩ ⟨"/a/./b"⟩ = some ⟨"../x"⟩ ∧
      normalize (join ⟨"/a/./b"⟩ ⟨"../x"⟩) = normalize ⟨"/a/x/"⟩ := by
  have hup : relativeTo? ⟨"x/b"⟩ ⟨"../a"⟩ = some ⟨"../../x/b"⟩ := by decide +kernel
  have hway : relativeTo? ⟨"/a/x/"⟩ ⟨"/a/./b"⟩ = some ⟨"../x"⟩ := by decide +kernel
  have hbase : Path.IsAbsolute ⟨"/a/./b"⟩ := by decide
  have hp : Path.IsAbsolute ⟨"/a/x/"⟩ := by decide
  refine ⟨hup, ?_, hbase, hp, hway, ?_⟩
  case refine_1 =>
    obtain ⟨_, hjoin, _⟩ := relativeTo?_inverts_join ⟨"../a"⟩ ⟨"x/b"⟩
    obtain ⟨_, common, rest, hcommon, hrest, htfae⟩ := hjoin _ hup
    have hfrom : (normalize ⟨"../a"⟩).components = [.up, .name "a"] := by decide +kernel
    have hto : (normalize ⟨"x/b"⟩).components = [.name "x", .name "b"] := by decide +kernel
    have hmem : .up ∈ rest := by
      rw [hfrom] at hrest
      cases common with
      | nil =>
        rw [List.nil_append] at hrest
        rw [← hrest]
        exact List.mem_cons_self
      | cons c common =>
        have hc : c = .name "x" := (List.cons_prefix_cons.mp (hto ▸ hcommon.right)).1
        rw [hc] at hrest
        cases hrest
    exact mt (htfae.out 0 2).mp (not_not_intro hmem)
  case refine_2 =>
    obtain ⟨_, _, habsolute⟩ := relativeTo?_inverts_join ⟨"/a/./b"⟩ ⟨"/a/x/"⟩
    obtain ⟨way, h, hjoin⟩ := habsolute hbase hp
    rw [hway] at h
    cases h
    exact hjoin

end Way

section Descent

-- Names alone lead from the normal form of `base` to that of `p`, and at least one of them.
structure Descends (base p : Path) (names : List String) : Prop where
  absolute      : base.IsAbsolute ↔ p.IsAbsolute
  ne_nil        : names ≠ []
  ordinary      : AllOrdinary names
  components_eq : p.normalize.components = base.normalize.components ++ names.map .name

theorem IsWay.text_ne_empty_iff (h : IsWay base p common climb descend way) :
    way.text ≠ "" ↔ way.components ≠ [] := by
  constructor
  case mp =>
    intro hne hc
    rw [h.components_eq] at hc
    rw [h.way_eq, hc] at hne
    exact hne rfl
  case mpr =>
    intro hne he
    rw [show way = empty from Path.ext he] at hne
    exact hne rfl

theorem IsWay.descends (h : IsWay base p common climb descend way) (hne : way.text ≠ "")
    (hup : way.components.head? ≠ some .up) : ∃ names, Descends base p names := by
  rw [h.text_ne_empty_iff, h.components_eq] at hne
  rw [h.components_eq] at hup
  cases climb with
  | cons c climb => exact absurd rfl hup
  | nil =>
    rw [List.length_nil, List.replicate_zero, List.nil_append] at hne hup
    have hno : .up ∉ descend := fun hmem => hup (head?_of_up_mem h.parting.right hmem)
    obtain ⟨names, ho, rfl⟩ := exists_names_of_no_up h.isMove_descend hno
    have hbase := h.parting.left
    rw [List.append_nil] at hbase
    refine ⟨names, h.absolute, fun he => hne (by rw [he, List.map_nil]), ho, ?_⟩
    rw [components_normalize, components_normalize, hbase, h.parting.right]

theorem isBelow_iff : p.IsBelow base ↔ ∃ names, Descends base p names := by
  constructor
  case mp =>
    intro h
    unfold IsBelow at h
    split at h
    case h_1 way hw =>
      obtain ⟨hne, _, hup⟩ := h
      obtain ⟨_, _, _, hway⟩ := exists_isWay hw
      exact hway.descends hne hup
    case h_2 => exact h.elim
  case mpr =>
    rintro ⟨names, h⟩
    have hp := h.components_eq
    rw [components_normalize, components_normalize] at hp
    exact isBelow_of_append hp h.ordinary h.ne_nil

end Descent

end Path

namespace EntryPath

-- The second look finds out whether names alone lead from the root to a path. That the way there is
-- absolute, which it looks for too, cannot be.
theorem checkBelow_decides_descent (root candidate : Path) :
    (checkBelow root candidate = .ok () ↔ ∃ names, Path.Descends root candidate names) ∧
      (checkBelow root candidate = .error .pathTraversal ↔
        ¬ ∃ names, Path.Descends root candidate names) ∧
      ∀ way, candidate.relativeTo? root = some way → ¬ way.IsAbsolute := by
  rw [checkBelow, ← Path.isBelow_iff]
  refine ⟨?_, ?_, ?_⟩
  · split <;> simp_all
  · split <;> simp_all
  · intro way h
    obtain ⟨_, _, _, hway⟩ := Path.exists_isWay h
    exact hway.not_isAbsolute

theorem checkBelow_decides_descent_etc :
    checkBelow ⟨"/opt/./app"⟩ ⟨"/opt/app/a/../b"⟩ = .ok () ∧
      (∃ names, Path.Descends ⟨"/opt/./app"⟩ ⟨"/opt/app/a/../b"⟩ names) ∧
      checkBelow ⟨"/opt/./app"⟩ ⟨"/opt/app/a/../../etc"⟩ = .error .pathTraversal ∧
      (¬ ∃ names, Path.Descends ⟨"/opt/./app"⟩ ⟨"/opt/app/a/../../etc"⟩ names) ∧
      Path.relativeTo? ⟨"/opt/app/a/../../etc"⟩ ⟨"/opt/./app"⟩ = some ⟨"../etc"⟩ ∧
      ¬ Path.IsAbsolute ⟨"../etc"⟩ := by
  have hok : checkBelow ⟨"/opt/./app"⟩ ⟨"/opt/app/a/../b"⟩ = .ok () := by decide +kernel
  have herror : checkBelow ⟨"/opt/./app"⟩ ⟨"/opt/app/a/../../etc"⟩ = .error .pathTraversal := by
    decide +kernel
  have hway : Path.relativeTo? ⟨"/opt/app/a/../../etc"⟩ ⟨"/opt/./app"⟩ = some ⟨"../etc"⟩ := by
    decide +kernel
  obtain ⟨hdown, _, _⟩ := checkBelow_decides_descent ⟨"/opt/./app"⟩ ⟨"/opt/app/a/../b"⟩
  obtain ⟨_, hout, hrelative⟩ := checkBelow_decides_descent ⟨"/opt/./app"⟩ ⟨"/opt/app/a/../../etc"⟩
  exact ⟨hok, hdown.mp hok, herror, hout.mp herror, hway, hrelative _ hway⟩

end EntryPath
end TarGuard
