import TarGuard.Proofs.Moves
import TarGuard.Proofs.SecureDirectory

namespace TarGuard

open FileSystem

namespace FileSystem.LeadsAlong

variable {fs fs' : FileSystem} {p : Path} {l loc : Location} {cs : List Component} {c : Component}
  {mode : UInt32} {node : Node} (h : fs.LeadsAlong cs l) (hp : p.components = .root :: (cs ++ [c]))

include h hp

theorem locate_cases (hl : fs.locate .linkStatus p = .ok loc) :
    loc = move l c ∨ ¬ p.EndsPlainly ∧ ∃ t, fs.node? (move l c) = some (.link t) := by
  have hc := Path.isMove_last hp
  have ha := Path.isAbsolute_of_components hp
  obtain ⟨front, vs, m, hn, hv, hm⟩ := h.exists_walk hc (Path.telling_lookupPieces hp ha)
  have ⟨_, hw⟩ := locate_eq_ok_iff.mp hl
  rw [startOf_of_isAbsolute ha, ← walk_eq_ok_iff, hm, walk_eq_ok_iff] at hw
  rcases hw.move_cases hc hv h.isDirectory with ⟨hloc, _⟩ | ⟨hne, _, ht⟩
  · exact .inl hloc
  · exact .inr ⟨fun he => hne (Path.eq_nil_of_endsPlainly he hn hv), ht⟩

theorem locate_of_endsPlainly (he : p.EndsPlainly) (ht : checkText p.text = .ok ())
    (hs : ∀ s, c = .name s → s.utf8ByteSize ≤ 255) :
    fs.locate .linkStatus p = .ok (move l c) := by
  have hc := Path.isMove_last hp
  have ha := Path.isAbsolute_of_components hp
  obtain ⟨front, vs, m, hn, hv, hm⟩ := h.exists_walk hc (Path.telling_lookupPieces hp ha)
  rw [Path.eq_nil_of_endsPlainly he hn hv] at hm
  rw [locate, ht, startOf_of_isAbsolute ha, hm]
  rcases hc with rfl | ⟨s, ho, rfl⟩
  · exact walk_up.trans walk_nil
  · exact walk_last ho.ne_empty ho.ne_here ho.ne_up (hs s rfl) fun hf => by cases hf

theorem makeDirectory_of_endsPlainly (he : p.EndsPlainly) (ht : checkText p.text = .ok ())
    (hs : ∀ s, c = .name s → s.utf8ByteSize ≤ 255) (mode : UInt32) :
    fs.makeDirectory p mode = .ok (fs.put (move l c) (.directory mode)) ∨
      fs.makeDirectory p mode = .error .alreadyExists ∧ ∃ node, fs.linkStatus p = .ok node := by
  have hl := h.locate_of_endsPlainly hp he ht hs
  have hnew : fs.locateNewDirectory p = .ok (move l c) := by
    have hfilter : p.words.filter (· ≠ "") = p.words := by
      rw [Path.words, List.filter_filter]
      simp
    rw [locate, Path.lookupPieces_of_endsPlainly he] at hl
    rw [locateNewDirectory, Path.lookupPieces_of_endsPlainly he, hfilter, hl]
  rw [makeDirectory, hnew]
  cases hn : fs.node? (move l c) with
  | none => exact .inl (by simp [bind, Except.bind, hn, pure, Except.pure])
  | some node =>
    refine .inr ⟨by simp [bind, Except.bind, hn, throw, throwThe, MonadExceptOf.throw], node, ?_⟩
    exact linkStatus_eq_ok_iff.mpr ⟨_, hl, hn⟩

theorem linkStatus_cases (hn : fs.linkStatus p = .ok node) :
    fs.node? (move l c) = some node ∨
      ¬ p.EndsPlainly ∧ ∃ t, fs.node? (move l c) = some (.link t) := by
  obtain ⟨loc, hl, hn⟩ := linkStatus_eq_ok_iff.mp hn
  refine (h.locate_cases hp hl).imp_left fun he => ?_
  rwa [he] at hn

theorem exists_obstacle (hn : fs.linkStatus p = .ok node) (hd : ¬ node.isDirectory) :
    ∃ node, fs.node? (move l c) = some node ∧ ¬ node.isDirectory := by
  rcases h.linkStatus_cases hp hn with hn | ⟨_, t, ht⟩
  · exact ⟨node, hn, hd⟩
  · exact ⟨.link t, ht, by simp [Node.isDirectory]⟩

theorem eq_put_of_makeDirectory (hm : fs.makeDirectory p mode = .ok fs') :
    fs.node? (move l c) = none ∧ fs.Accepts (move l c) (.directory mode) ∧
      fs' = fs.put (move l c) (.directory mode) := by
  have hc := Path.isMove_last hp
  have ha := Path.isAbsolute_of_components hp
  have htelling : Path.telling ((lookupPieces p.text).filter (· ≠ "")) =
      (cs ++ [c]).map Component.text := by
    rw [Path.telling_filter, Path.telling_lookupPieces hp ha]
  obtain ⟨_, vs, m, _, hv, hwalk⟩ := h.exists_walk hc htelling
  obtain ⟨loc, hl, hn, rfl⟩ := makeDirectory_eq_ok_iff.mp hm
  obtain ⟨hcheck, hw⟩ := locateNewDirectory_eq_ok_iff.mp hl
  rw [startOf_of_isAbsolute ha, ← walk_eq_ok_iff, hwalk, walk_eq_ok_iff] at hw
  have hnot : ¬ fs.IsDirectory loc := by simp [IsDirectory, hn]
  rcases hw.move_cases hc hv h.isDirectory with ⟨rfl, hd | ⟨s, hs, rfl, hsize⟩⟩ | ⟨_, hd, _⟩
  · exact absurd hd hnot
  · have hz : '\x00' ∉ s.toList := fun hz => not_mem_of_checkText hcheck
      (Path.mem_text_of_mem_components ha (by simp [hp]) hz)
    exact ⟨hn, ⟨hs.isFileName hz hsize, h.isDirectory, fun hd => absurd hd hnot⟩, rfl⟩
  · exact absurd hd hnot

end FileSystem.LeadsAlong

namespace SecureDirectory

variable {fs fs' : FileSystem} {root dir p : Path} {base l : Location}
  {cs cs' rs : List Component} {c : Component} {node : Node}

-- The path ends plainly and its text can be looked up, and so can some names in it.
structure IsFit (p : Path) (cs : List Component) : Prop where
  plain : p.EndsPlainly
  text  : checkText p.text = .ok ()
  names : ∀ s, .name s ∈ cs → s.utf8ByteSize ≤ 255

theorem IsFit.mono (h : IsFit p cs') (hs : cs ⊆ cs') : IsFit p cs where
  plain := h.plain
  text := h.text
  names s hm := h.names s (hs hm)

theorem IsFit.of_append {t : String} (h : IsFit dir cs) (ht : dir.text = p.text ++ t)
    (ha : p.IsAbsolute) (hp : p.EndsPlainly) : IsFit p cs where
  plain := hp
  text := by
    have hne : p.text ≠ "" := fun he => by simp [Path.IsAbsolute, he] at ha
    exact checkText_of_append (ht ▸ h.text) hne
  names := h.names

theorem level_descends (h : fs.LeadsAlong cs l) (hp : p.components = .root :: (cs ++ [c])) :
    Ends (level p) fs
      (fun _ fs' => Grows (fun l' node => l' = move l c ∧ node = .directory mode) fs fs' ∧
        (fs'.LeadsAlong (cs ++ [c]) (move l c) ∨
          ¬ p.EndsPlainly ∧ ∃ t, fs'.node? (move l c) = some (.link t)))
      (fun e fs' => fs' = fs ∧
        (e = .linkDetected ∧ (∃ node, fs.node? (move l c) = some node ∧ ¬ node.isDirectory) ∨
          e = .directoryFailed ∧ ¬ IsFit p [c])) := by
  have hc := Path.isMove_last hp
  have hfit (hf : IsFit p [c]) := h.makeDirectory_of_endsPlainly hp hf.plain hf.text
    (fun s hs => hf.names s (hs ▸ List.mem_cons_self)) mode
  rw [Ends, level_apply]
  cases hm : fs.makeDirectory p mode with
  | ok fs' =>
    obtain ⟨hn, ha, rfl⟩ := h.eq_put_of_makeDirectory hp hm
    have g : Grows (fun l' node => l' = move l c ∧ node = .directory mode) fs (fs.put _ _) :=
      Grows.put hn ⟨rfl, rfl⟩
    exact ⟨g, .inl ((h.grows g).snoc hc (isDirectory_put ha))⟩
  | error e =>
    rw [hm] at hfit
    cases e
    -- What is in the way is looked at, unless the path to it is unfit for that.
    case alreadyExists =>
      cases hs : fs.linkStatus p with
      | error e =>
        refine ⟨rfl, .inr ⟨rfl, fun hf => ?_⟩⟩
        rcases hfit hf with hok | ⟨_, _, hok⟩
        · cases hok
        · cases hs.symm.trans hok
      | ok node =>
        cases node with
        | directory =>
          refine ⟨Grows.refl fs, (h.linkStatus_cases hp hs).imp_left fun hn => ?_⟩
          exact h.snoc hc (isDirectory_of_node? hn)
        | file =>
          exact ⟨rfl, .inl ⟨rfl, h.exists_obstacle hp hs (by simp [Node.isDirectory])⟩⟩
        | link =>
          exact ⟨rfl, .inl ⟨rfl, h.exists_obstacle hp hs (by simp [Node.isDirectory])⟩⟩
    all_goals
      refine ⟨rfl, .inr ⟨rfl, fun hf => ?_⟩⟩
      rcases hfit hf with hok | ⟨hok, _⟩ <;> cases hok

def place (base : Location) (cs : List Component) : Location :=
  cs.foldl move base

theorem place_concat (base : Location) (cs : List Component) (c : Component) :
    place base (cs ++ [c]) = move (place base cs) c := by
  rw [place, place, List.foldl_append, List.foldl_cons, List.foldl_nil]

def IsOnWay (base : Location) (cs : List Component) (l : Location) (node : Node) : Prop :=
  node = .directory mode ∧ ∃ q, q <+: cs ∧ l = place base q

def IsObstructed (fs : FileSystem) (base : Location) (cs : List Component) : Prop :=
  ∃ q node, q <+: cs ∧ fs.node? (place base q) = some node ∧ ¬ node.isDirectory

def StaysBelow (base : Location) (cs : List Component) : Prop :=
  ∀ q, q <+: cs → base <:+ place base q

instance (base : Location) (cs : List Component) : Decidable (StaysBelow base cs) :=
  decidable_of_iff (∀ q ∈ cs.inits, base <:+ place base q) (by simp [StaysBelow])

theorem grows_mono (g : Grows (IsOnWay base cs) fs fs') (hp : cs <+: cs') :
    Grows (IsOnWay base cs') fs fs' :=
  g.mono fun _ _ ⟨hn, q, hq, hl⟩ => ⟨hn, q, hq.trans hp, hl⟩

theorem IsObstructed.mono (h : IsObstructed fs base cs) (hp : cs <+: cs') :
    IsObstructed fs base cs' :=
  have ⟨q, node, hq, hn⟩ := h
  ⟨q, node, hq.trans hp, hn⟩

theorem node?_of_grows (g : Grows (IsOnWay base cs) fs fs') (hn : fs'.node? l = some node)
    (hd : ¬ node.isDirectory) : fs.node? l = some node := by
  rcases g.node l with he | ⟨_, node', hn', hw, _⟩
  · rw [← he, hn]
  · subst hw
    cases hn.symm.trans hn'
    exact absurd rfl hd

-- What there is once a way has been made, directory by directory. Only in the last place there may
-- be a link, if the path says more than its components.
structure Made (base : Location) (rs cs : List Component) (dir : Path) (fs fs' : FileSystem) :
    Prop where
  grows : Grows (IsOnWay base cs) fs fs'
  above : ∀ q, q <+: cs → q ≠ cs → fs'.IsDirectory (place base q)
  last  : fs'.LeadsAlong (rs ++ cs) (place base cs) ∨
    ¬ dir.EndsPlainly ∧ ∃ t, fs'.node? (place base cs) = some (.link t)

namespace Made

theorem nil (h : fs.LeadsAlong rs base) (dir : Path) : Made base rs [] dir fs fs where
  grows := Grows.refl fs
  above _ hq hne := absurd (List.prefix_nil.mp hq) hne
  last := .inl (by rwa [List.append_nil])

theorem leadsAlong (h : Made base rs cs dir fs fs') (hb : fs.LeadsAlong rs base)
    (he : dir.EndsPlainly ∨ rs ++ cs = []) : fs'.LeadsAlong (rs ++ cs) (place base cs) := by
  rcases h.last with hl | ⟨hplain, t, ht⟩
  · exact hl
  · obtain ⟨_, rfl⟩ := List.append_eq_nil_iff.mp (he.resolve_left hplain)
    obtain ⟨_, hm⟩ := isDirectory_iff.mp (h.grows.isDirectory hb.isDirectory)
    cases hm.symm.trans ht

theorem snoc {parent : Path} {fs₁ fs₂ : FileSystem} (h : Made base rs cs parent fs fs₁)
    (hl : fs₁.IsDirectory (place base cs))
    (g : Grows (fun l node => l = place base (cs ++ [c]) ∧ node = .directory mode) fs₁ fs₂)
    (hlast : fs₂.LeadsAlong (rs ++ cs ++ [c]) (place base (cs ++ [c])) ∨
      ¬ dir.EndsPlainly ∧ ∃ t, fs₂.node? (place base (cs ++ [c])) = some (.link t)) :
    Made base rs (cs ++ [c]) dir fs fs₂ where
  grows := by
    refine (grows_mono h.grows (List.prefix_append cs [c])).trans (g.mono ?_)
    rintro l node ⟨rfl, hn⟩
    exact ⟨hn, cs ++ [c], List.prefix_rfl, rfl⟩
  above q hq hne := by
    have hq := (List.prefix_concat_iff.mp hq).resolve_left hne
    by_cases he : q = cs
    · exact g.isDirectory (he ▸ hl)
    · exact g.isDirectory (h.above q hq he)
  last := by rwa [List.append_assoc] at hlast

theorem way (h : Made base rs cs dir fs fs') {q : List Component} (hq : q <+: cs) :
    fs'.IsDirectory (place base q) ∨
      q = cs ∧ ¬ dir.EndsPlainly ∧ ∃ t, fs.node? (place base cs) = some (.link t) := by
  by_cases he : q = cs
  case neg => exact .inl (h.above q hq he)
  case pos =>
    subst he
    refine h.last.imp (fun hl => hl.isDirectory) fun hlink => ?_
    obtain ⟨hplain, t, ht⟩ := hlink
    exact ⟨rfl, hplain, t, node?_of_grows h.grows ht (by simp [Node.isDirectory])⟩

theorem outside_iff (h : Made base rs cs dir fs fs') :
    (∀ l, ¬ base <:+ l → fs'.node? l = fs.node? l) ↔
      ∀ q, q <+: cs → ¬ base <:+ place base q → fs.node? (place base q) ≠ none := by
  constructor
  case mp =>
    intro ho q hq hl hn
    have hn' := (ho _ hl).trans hn
    rcases h.way hq with hd | ⟨rfl, _, t, ht⟩
    · obtain ⟨_, hm⟩ := isDirectory_iff.mp hd
      cases hn'.symm.trans hm
    · cases hn.symm.trans ht
  case mpr =>
    intro ho l hl
    rcases h.grows.node l with he | ⟨hn, _, _, _, q, hq, rfl⟩
    · exact he
    · exact absurd hn (ho q hq hl)

end Made

theorem make_descends (hr : root.components = .root :: rs) (h : fs.LeadsAlong rs base)
    (hd : dir.components = root.components ++ cs) :
    Ends (make root dir) fs (fun _ fs' => Made base rs cs dir fs fs')
      (fun e fs' => Grows (IsOnWay base cs) fs fs' ∧
        (e = .linkDetected ∧ IsObstructed fs' base cs ∨
          e = .directoryFailed ∧ cs ≠ [] ∧ ¬ IsFit dir cs)) := by
  -- From the end of the way, as what is above the last directory is made first.
  induction cs using List.reverseRecOn generalizing dir with
  | nil =>
    have ha : dir.Alike root := by rwa [List.append_nil] at hd
    rw [make_of_alike ha]
    exact Ends.pure (.nil h dir)
  | append_singleton cs c ih =>
    have hcs : cs <+: cs ++ [c] := List.prefix_append cs [c]
    have hdc : dir.components = .root :: (rs ++ cs ++ [c]) := by
      rw [hd, hr, List.cons_append, List.append_assoc]
    obtain ⟨parent, hparents, hpc, hends, t, ht⟩ := Path.exists_parents_eq hdc
    have hpd : parent.components = root.components ++ cs := by rw [hpc, hr, List.cons_append]
    have hnot : ¬ dir.Alike root := fun he => by
      rw [Path.Alike, hd] at he
      simp at he
    rw [make_of_parents hparents hnot ⟨cs, hpd.symm⟩ ⟨cs ++ [c], hd.symm⟩]
    refine (ih hpd).bind ?failed ?done
    case failed =>
      rintro e fs₁ ⟨g, ⟨he, ho⟩ | ⟨he, hne, hf⟩⟩
      · exact ⟨grows_mono g hcs, .inl ⟨he, ho.mono hcs⟩⟩
      · refine ⟨grows_mono g hcs, .inr ⟨he, by simp, fun hfit => hf ?_⟩⟩
        have hplain := hends.resolve_right fun hnil => hne (List.append_eq_nil_iff.mp hnil).2
        have ha := Path.isAbsolute_of_components hpc
        exact (hfit.mono (List.subset_append_left cs [c])).of_append ht ha hplain
    case done =>
      intro _ fs₁ hmade
      have hl := hmade.leadsAlong h hends
      have hlevel := level_descends hl hdc
      rw [← place_concat] at hlevel
      refine hlevel.imp ?_ ?_
      · rintro _ fs₂ ⟨g, hlast⟩
        exact hmade.snoc hl.isDirectory g hlast
      · rintro e fs₂ ⟨rfl, ⟨he, node, hn⟩ | ⟨he, hf⟩⟩
        · exact ⟨grows_mono hmade.grows hcs, .inl ⟨he, cs ++ [c], node, List.prefix_rfl, hn⟩⟩
        · refine ⟨grows_mono hmade.grows hcs, .inr ⟨he, by simp, fun hfit => hf ?_⟩⟩
          exact hfit.mono (List.subset_append_right cs [c])

theorem node?_eq_of_staysBelow (g : Grows (IsOnWay base cs) fs fs') (hs : StaysBelow base cs)
    (hl : ¬ base <:+ l) : fs'.node? l = fs.node? l := by
  rcases g.node l with he | ⟨_, _, _, _, q, hq, rfl⟩
  · exact he
  · exact absurd (hs q hq) hl

-- A path that does not begin as the root does is refused. Any other is made directory by directory,
-- exactly where its components lead from the root, and none of them is a link, except that a link
-- in the last place is looked through if a slash or a `.` is behind it. It can only fail if
-- something else is in the way, or if the path is not fit to be looked up. The text alone is
-- compared, so that `..` can lead out of the root: only a way that never does is sure to leave
-- alone what is outside, and if all could be made, what is outside is as before exactly if nothing
-- that the way met there was missing.
theorem make_along (ha : root.IsAbsolute) (hb : fs.locate .status root = .ok base)
    (hd : fs.IsDirectory base) (dir : Path) :
    (¬ dir.StartsWith root → make root dir fs = .error .pathTraversal fs) ∧
    ∀ cs, dir.components = root.components ++ cs →
      Ends (make root dir) fs
        (fun _ fs' => Grows (IsOnWay base cs) fs fs' ∧
          (∀ q, q <+: cs → fs'.IsDirectory (place base q) ∨
            q = cs ∧ ¬ dir.EndsPlainly ∧ ∃ t, fs.node? (place base cs) = some (.link t)) ∧
          ((∀ l, ¬ base <:+ l → fs'.node? l = fs.node? l) ↔
            ∀ q, q <+: cs → ¬ base <:+ place base q → fs.node? (place base q) ≠ none))
        (fun e fs' => Grows (IsOnWay base cs) fs fs' ∧
          (e = .linkDetected ∧ IsObstructed fs base cs ∨
            e = .directoryFailed ∧ ¬ IsFit dir cs)) ∧
      (StaysBelow base cs → ∀ l, ¬ base <:+ l →
        (finalState (make root dir) fs).node? l = fs.node? l) := by
  refine ⟨fun hs => ?_, fun cs hc => ?_⟩
  · rw [make, if_neg hs]
    rfl
  obtain ⟨rs, hr, _⟩ := Path.components_of_isAbsolute ha
  have hends := make_descends hr (.of_locate hr hb hd) hc
  refine ⟨hends.imp ?done ?failed, fun hs l hl => ?outside⟩
  case done => exact fun _ fs' hmade => ⟨hmade.grows, fun _ => hmade.way, hmade.outside_iff⟩
  case failed =>
    rintro e fs' ⟨g, ⟨he, q, node, hq, hn, hnd⟩ | ⟨he, _, hf⟩⟩
    · exact ⟨g, .inl ⟨he, q, node, hq, node?_of_grows g hn hnd, hnd⟩⟩
    · exact ⟨g, .inr ⟨he, hf⟩⟩
  case outside =>
    have g : Grows (IsOnWay base cs) fs (finalState (make root dir) fs) :=
      (hends.imp (fun _ _ h => h.grows) fun _ _ h => h.1).finalState
    exact node?_eq_of_staysBelow g hs hl

def emptyRoot : FileSystem :=
  (FileSystem.root 0).put ["r"] (.directory 0o755)

theorem make_siblings : ∃ fs', make ⟨"/r"⟩ ⟨"/r/a/../b"⟩ emptyRoot = .ok () fs' := by
  have ha : make ⟨"/r"⟩ ⟨"/r/a"⟩ emptyRoot =
      .ok () (emptyRoot.put ["a", "r"] (.directory mode)) := rfl
  have hup : level ⟨"/r/a/.."⟩ (emptyRoot.put ["a", "r"] (.directory mode)) =
      .ok () (emptyRoot.put ["a", "r"] (.directory mode)) := rfl
  have hb : level ⟨"/r/a/../b"⟩ (emptyRoot.put ["a", "r"] (.directory mode)) =
      .ok () ((emptyRoot.put ["a", "r"] (.directory mode)).put ["b", "r"] (.directory mode)) := rfl
  have hmake := make_ok_of_parents rfl (by decide) (by decide) (by decide) ha hup
  exact ⟨_, make_ok_of_parents rfl (by decide) (by decide) (by decide) hmake hb⟩

theorem make_along_siblings :
    Path.IsAbsolute ⟨"/r"⟩ ∧ emptyRoot.locate .status ⟨"/r"⟩ = .ok ["r"] ∧
    emptyRoot.IsDirectory ["r"] ∧
    ∃ fs', make ⟨"/r"⟩ ⟨"/r/a/../b"⟩ emptyRoot = .ok () fs' ∧
      fs'.IsDirectory ["a", "r"] ∧ fs'.IsDirectory ["b", "r"] ∧
      ∀ l, ¬ ["r"] <:+ l → fs'.node? l = emptyRoot.node? l := by
  have ha : Path.IsAbsolute ⟨"/r"⟩ := by decide
  have hb : emptyRoot.locate .status ⟨"/r"⟩ = .ok ["r"] := rfl
  have hd : emptyRoot.IsDirectory ["r"] := by decide
  obtain ⟨fs', hm⟩ := make_siblings
  have ⟨hends, houtside⟩ :=
    (make_along ha hb hd ⟨"/r/a/../b"⟩).2 [.name "a", .up, .name "b"] rfl
  have ⟨_, hway, _⟩ := hends.of_ok hm
  have hout := houtside (by decide)
  rw [finalState_of_ok hm] at hout
  refine ⟨ha, hb, hd, fs', hm, ?_, ?_, hout⟩
  · rcases hway [.name "a"] (by decide) with h | ⟨h, _⟩
    · exact h
    · cases h
  · rcases hway _ List.prefix_rfl with h | ⟨_, _, t, ht⟩
    · exact h
    · cases ht

-- The way out of the root is not noticed.
theorem make_outside :
    emptyRoot.locate .status ⟨"/r"⟩ = .ok ["r"] ∧ emptyRoot.IsDirectory ["r"] ∧
    ¬ ["r"] <:+ ["x"] ∧ emptyRoot.node? ["x"] = none ∧
    ∃ fs', make ⟨"/r"⟩ ⟨"/r/../x"⟩ emptyRoot = .ok () fs' ∧ fs'.IsDirectory ["x"] := by
  have hup : make ⟨"/r"⟩ ⟨"/r/.."⟩ emptyRoot = .ok () emptyRoot := rfl
  have hx : level ⟨"/r/../x"⟩ emptyRoot = .ok () (emptyRoot.put ["x"] (.directory mode)) := rfl
  have hmake := make_ok_of_parents rfl (by decide) (by decide) (by decide) hup hx
  exact ⟨rfl, by decide, by decide, rfl, _, hmake, by decide⟩

-- Nor is a link, if there is a slash behind it.
example :
    let fs := emptyRoot.put ["l", "r"] (.link "/")
    make ⟨"/r"⟩ ⟨"/r/l/"⟩ fs = .ok () fs ∧ make ⟨"/r"⟩ ⟨"/r/l"⟩ fs = .error .linkDetected fs :=
  ⟨rfl, rfl⟩

end SecureDirectory
end TarGuard
