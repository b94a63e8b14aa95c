import TarGuard.Extraction.SecureDirectory
import TarGuard.Proofs.Ends
import TarGuard.Proofs.Joined

namespace TarGuard.SecureDirectory

open FileSystem

variable {fs fs' : FileSystem} {base loc : Location} {names above trail : List String}
  {name s : String} {root : Path}

theorem level_apply (p : Path) (fs : FileSystem) :
    level p fs =
      match fs.makeDirectory p mode with
      | .ok fs' => .ok () fs'
      | .error .alreadyExists =>
        match fs.linkStatus p with
        | .ok (.directory _) => .ok () fs
        | .ok _ => .error .linkDetected fs
        | .error _ => .error .directoryFailed fs
      | .error _ => .error .directoryFailed fs := by
  simp only [level, bind, EStateM.bind, get, getThe, MonadStateOf.get, get_apply]
  cases fs.makeDirectory p mode with
  | ok => rfl
  | error e =>
    cases e <;> try rfl
    simp only [EStateM.bind, get_apply]
    cases fs.linkStatus p with
    | error => rfl
    | ok node => cases node <;> rfl

section Above

variable {r p q : Path}

theorem levels_of_alike (h : p.Alike r) : levels r p = [] := by
  rw [levels, List.takeWhile_cons_of_neg (by simpa using h), List.reverse_nil]

theorem levels_of_parents (hp : p.parents = q :: q.parents) (h : ¬ p.Alike r) :
    levels r p = levels r q ++ [p] := by
  rw [levels, levels, hp, List.takeWhile_cons_of_pos (by simpa using h), List.reverse_cons]

theorem make_of_alike (h : p.Alike r) : make r p = pure () := by
  have hs : p.StartsWith r := ⟨[], (List.append_nil _).trans h.symm⟩
  rw [make, if_pos hs, levels_of_alike h]
  rfl

theorem make_of_parents (hp : p.parents = q :: q.parents) (h : ¬ p.Alike r) (hq : q.StartsWith r)
    (hs : p.StartsWith r) : make r p = (make r q >>= fun _ => level p) := by
  rw [make, make, if_pos hs, if_pos hq, levels_of_parents hp h]
  simp

theorem make_ok_of_parents {fs₁ fs₂ : FileSystem} (hp : p.parents = q :: q.parents)
    (h : ¬ p.Alike r) (hq : q.StartsWith r) (hs : p.StartsWith r)
    (h₁ : make r q fs = .ok () fs₁) (h₂ : level p fs₁ = .ok () fs₂) :
    make r p fs = .ok () fs₂ := by
  rw [make_of_parents hp h hq hs, bind_of_ok h₁, h₂]

end Above

theorem make_joined_concat (ho : AllOrdinary (names ++ [s])) :
    make root (root.joined (names ++ [s])) =
      (make root (root.joined names) >>= fun _ => level (root.joined (names ++ [s]))) := by
  have hc : Path.IsMove (.name s) := .inr ⟨s, ho.last, rfl⟩
  have hp : (root.joined (names ++ [s])).parents = (root.joined names).prefixes := by
    rw [Path.joined_concat, ← Path.parents_join hc, Component.text]
  have hnot := Path.not_alike_joined root ho
  have hstarts := Path.startsWith_joined root ho
  rcases List.eq_nil_or_concat names with rfl | ⟨front, t, rfl⟩
  case inl =>
    obtain ⟨q, hq, hqc⟩ := root.exists_prefixes_eq
    rw [make_of_parents (hp.trans hq) hnot ⟨[], by rw [List.append_nil, hqc]⟩ hstarts,
      make_of_alike hqc, Path.joined_nil, make_of_alike rfl]
  case inr =>
    rw [List.concat_eq_append] at *
    have ht : Path.IsMove (.name t) := .inr ⟨t, ho.front.last, rfl⟩
    have hq : (root.joined (front ++ [t])).prefixes =
        root.joined (front ++ [t]) :: (root.joined (front ++ [t])).parents := by
      have hj := Path.prefixes_join (p := root.joined front) ht
      rwa [Component.text, ← Path.joined_concat] at hj
    exact make_of_parents (hp.trans hq) hnot (Path.startsWith_joined root ho.front) hstarts

def IsOnTrail (base trail : Location) (l : Location) (node : Node) : Prop :=
  node = .directory mode ∧ ∃ q, q ≠ [] ∧ q <:+ trail ∧ l = q ++ base

namespace IsOnTrail

variable {l : Location} {node : Node} {trail' : List String}

theorem mono (h : IsOnTrail base trail l node) (ht : trail <:+ trail') :
    IsOnTrail base trail' l node :=
  have ⟨hn, q, hq, hs, hl⟩ := h
  ⟨hn, q, hq, hs.trans ht, hl⟩

theorem last (hl : l = name :: (trail ++ base)) (hn : node = .directory mode) :
    IsOnTrail base (name :: trail) l node :=
  ⟨hn, name :: trail, by simp, List.suffix_rfl, hl⟩

theorem eq_or_tail (h : IsOnTrail base trail l node) :
    l = trail ++ base ∧ node = .directory mode ∨ IsOnTrail base trail.tail l node := by
  have ⟨hn, q, hq, hs, hl⟩ := h
  cases trail with
  | nil => exact absurd (List.suffix_nil.mp hs) hq
  | cons name trail =>
    cases List.suffix_cons_iff.mp hs with
    | inl he => exact .inl ⟨by rw [hl, he], hn⟩
    | inr hs => exact .inr ⟨hn, q, hq, hs, hl⟩

theorem below (h : IsOnTrail base trail l node) : base <:+ l ∧ l ≠ base := by
  have ⟨_, q, hq, _, hl⟩ := h
  subst hl
  exact ⟨List.suffix_append q base, by simpa using hq⟩

theorem ne_of_tail (h : IsOnTrail base trail.tail l node) (hne : trail ≠ []) :
    l ≠ trail ++ base := by
  intro he
  have ⟨_, q, _, hs, hl⟩ := h
  have hq := hs.length_le
  have hp := List.length_pos_of_ne_nil hne
  rw [List.append_cancel_right (hl.symm.trans he), List.length_tail] at hq
  omega

theorem suffix (h : IsOnTrail base trail l node) : l <:+ trail ++ base := by
  obtain ⟨-, q, -, ⟨p, rfl⟩, rfl⟩ := h
  rw [List.append_assoc]
  exact List.suffix_append p (q ++ base)

end IsOnTrail

theorem eq_of_grows_onTrail {fs fs' : FileSystem} (g : Grows (IsOnTrail base trail) fs fs')
    (h : fs.IsDirectory (trail ++ base)) : fs' = fs := by
  apply g.eq_of_forall
  intro l node hw hn he
  have ⟨_, hm⟩ := isDirectory_iff.mp h
  by_cases hl : l = trail ++ base
  case pos => simp [hl, hm] at he
  case neg =>
    have ⟨_, hd⟩ := isDirectory_iff.mp (isDirectory_of_suffix hm hw.suffix hl)
    simp [hd] at he

-- Nothing was made on the way to an obstacle, since a directory that was just made is empty.
theorem eq_of_obstacle {fs fs' : FileSystem} {node : Node} (g : Grows (IsOnTrail base trail) fs fs')
    (hn : fs'.node? (name :: (trail ++ base)) = some node) (hd : ¬ node.isDirectory) :
    fs' = fs := by
  cases h : fs.node? (name :: (trail ++ base)) with
  | none =>
    have ⟨hw, _⟩ := g.added h hn
    simp [hw, Node.isDirectory] at hd
  | some _ => exact eq_of_grows_onTrail g (isDirectory_of_node?_cons h)

section Level

variable (hb : fs.locate .status root = .ok base) (hd : fs.IsDirectory (names.reverse ++ base))
  (ho : AllOrdinary (names ++ [s]))

structure StopsAt (fs : FileSystem) (root : Path) (base : Location) (names : List String)
    (s : String) : Prop where
  above : ∀ q, q <+: names → fs.IsDirectory (q.reverse ++ base)
  node  : ∃ node, fs.node? (s :: (names.reverse ++ base)) = some node ∧ ¬ node.isDirectory
  short : (root.joined (names ++ [s])).text.utf8ByteSize ≤ maxPathBytes

include hb hd ho

theorem level_joined :
    level (root.joined (names ++ [s])) fs =
      if checkText (root.joined (names ++ [s])).text = .ok () ∧ s.utf8ByteSize ≤ 255 then
        match fs.node? (s :: (names.reverse ++ base)) with
        | none => .ok () (fs.put (s :: (names.reverse ++ base)) (.directory mode))
        | some (.directory _) => .ok () fs
        | some _ => .error .linkDetected fs
      else .error .directoryFailed fs := by
  have hnew : fs.locateNewDirectory (root.joined (names ++ [s])) = _ := locateNewDirectory_joined ho
  rw [level_apply, makeDirectory, hnew]
  by_cases hc : checkText (root.joined (names ++ [s])).text = .ok ()
  case neg =>
    obtain ⟨e, he, hne, _⟩ := exists_checkText_error hc
    have hl : fs.locate .linkStatus (root.joined (names ++ [s])) = .error e := by
      rw [locate, he]
      rfl
    rw [if_neg fun h => hc h.1, hl]
    cases e <;> first | rfl | exact absurd rfl hne
  case pos =>
    have hl := locate_joined_concat hb hd ho hc
    by_cases hs : s.utf8ByteSize ≤ 255
    case neg =>
      rw [if_neg hs] at hl
      rw [if_neg fun h => hs h.2, hl]
      rfl
    case pos =>
      rw [if_pos hs] at hl
      rw [if_pos ⟨hc, hs⟩, linkStatus, hl]
      simp only [bind, Except.bind, existing]
      cases hn : fs.node? (s :: (names.reverse ++ base)) with
      | none => simp [pure, Except.pure]
      | some node => cases node <;> simp [throw, throwThe, MonadExceptOf.throw]

theorem level_joined_ends :
    Ends (level (root.joined (names ++ [s]))) fs
      (fun _ fs' =>
        Grows (fun l node => l = s :: (names.reverse ++ base) ∧ node = .directory mode) fs fs' ∧
        fs'.IsDirectory (s :: (names.reverse ++ base)) ∧
        checkText (root.joined (names ++ [s])).text = .ok ())
      (fun e fs' => fs' = fs ∧
        (e = .linkDetected ∧ StopsAt fs root base names s ∨ e = .directoryFailed)) := by
  rw [Ends, level_joined hb hd ho]
  by_cases hfit : checkText (root.joined (names ++ [s])).text = .ok () ∧ s.utf8ByteSize ≤ 255
  case neg =>
    rw [if_neg hfit]
    exact ⟨rfl, .inr rfl⟩
  case pos =>
    have hstop {node : Node} (hn : fs.node? (s :: (names.reverse ++ base)) = some node)
        (hnot : ¬ node.isDirectory) : StopsAt fs root base names s :=
      ⟨fun _ hq => hd.above (reverse_append_suffix hq), ⟨node, hn, hnot⟩,
        utf8ByteSize_le_of_checkText hfit.1⟩
    rw [if_pos hfit]
    cases hn : fs.node? (s :: (names.reverse ++ base)) with
    | none =>
      have hs : IsOrdinary s := ho.last
      have hz : '\x00' ∉ s.toList := fun hz =>
        not_mem_of_checkText hfit.1 (Path.mem_text_joined_concat ho hz)
      have ha : fs.Accepts (s :: (names.reverse ++ base)) (.directory mode) :=
        ⟨hs.isFileName hz hfit.2, hd, fun _ => rfl⟩
      exact ⟨Grows.put hn ⟨rfl, rfl⟩, isDirectory_put ha, hfit.1⟩
    | some node =>
      cases node with
      | directory => exact ⟨Grows.refl fs, isDirectory_of_node? hn, hfit.1⟩
      | file => exact ⟨rfl, .inl ⟨rfl, hstop hn (by simp [Node.isDirectory])⟩⟩
      | link => exact ⟨rfl, .inl ⟨rfl, hstop hn (by simp [Node.isDirectory])⟩⟩

end Level

section Run

theorem make_of_isDirectory_joined (hb : fs.locate .status root = .ok base)
    (hd : fs.IsDirectory (names.reverse ++ base)) (ho : AllOrdinary names)
    (hc : checkText (root.joined names).text = .ok ()) :
    make root (root.joined names) fs = .ok () fs := by
  have ⟨hr, _⟩ := locate_eq_ok_iff.mp hb
  induction names using List.reverseRecOn with
  | nil =>
    rw [Path.joined_nil, make_of_alike rfl]
    rfl
  | append_singleton names s ih =>
    rw [List.reverse_concat, List.cons_append] at hd
    obtain ⟨m, hm⟩ := isDirectory_iff.mp hd
    obtain ⟨_, _, _, _, _, hsize⟩ := isFileName_of_node?_cons hm
    have habove := isDirectory_of_node?_cons hm
    have hcfront := checkText_of_joined_concat hr ho hc
    rw [make_joined_concat ho, bind_of_ok (ih habove ho.front hcfront),
      level_joined hb habove ho, if_pos ⟨hc, hsize⟩, hm]

theorem make_joined_ends (hb : fs.locate .status root = .ok base) (hd : fs.IsDirectory base)
    (ho : AllOrdinary names) :
    Ends (make root (root.joined names)) fs
      (fun _ fs' => Grows (IsOnTrail base names.reverse) fs fs' ∧
        fs'.IsDirectory (names.reverse ++ base) ∧ checkText (root.joined names).text = .ok ())
      (fun e fs' => Grows (IsOnTrail base names.reverse.tail) fs fs' ∧
        (e = .linkDetected ∧ fs' = fs ∧
          (∃ q s, q ++ [s] <+: names ∧ StopsAt fs root base q s) ∨
        e = .directoryFailed)) := by
  have ⟨hr, _⟩ := locate_eq_ok_iff.mp hb
  induction names using List.reverseRecOn with
  | nil =>
    rw [Path.joined_nil, make_of_alike rfl]
    exact Ends.pure ⟨Grows.refl fs, hd, hr⟩
  | append_singleton names s ih =>
    rw [make_joined_concat ho, List.reverse_concat, List.tail_cons]
    refine (ih ho.front).bind ?failed ?done
    case failed =>
      rintro e fs' ⟨g, he⟩
      refine ⟨g.mono fun _ _ hw => hw.mono (List.tail_suffix _), he.imp_left ?_⟩
      rintro ⟨he, hfs, q, t, hq, hstop⟩
      exact ⟨he, hfs, q, t, hq.trans (List.prefix_append _ _), hstop⟩
    case done =>
      rintro _ fs₁ ⟨g, hdir, hc⟩
      have hb₁ := locate_of_grows_directory hb hd g
      refine (level_joined_ends hb₁ hdir ho).imp ?_ ?_
      · rintro _ fs₂ ⟨g', hdir', hc'⟩
        refine ⟨(g.mono fun _ _ hw => hw.mono (List.suffix_cons _ _)).trans ?_, hdir', hc'⟩
        exact g'.mono fun _ _ hw => .last hw.1 hw.2
      · rintro e fs₂ ⟨rfl, he⟩
        refine ⟨g, he.imp_left fun ⟨he, hstop⟩ => ?_⟩
        obtain ⟨node, hn, hnot⟩ := hstop.node
        -- Whatever was just made is empty, and so nothing was made.
        obtain rfl := eq_of_obstacle g hn hnot
        exact ⟨he, rfl, names, s, List.prefix_rfl, hstop⟩

end Run

section Spelled

theorem not_alike_pathTo (h : AllOrdinary (name :: (trail ++ above))) :
    ¬ (pathTo (name :: (trail ++ above))).Alike (pathTo above) := fun he => by
  have hr : AllOrdinary above := h.suffix (List.suffix_append (name :: trail) above)
  rw [Path.Alike, components_pathTo h, components_pathTo hr] at he
  have := congrArg List.length he
  simp at this

theorem levels_cons (h : AllOrdinary (name :: (trail ++ above))) :
    levels (pathTo above) (pathTo (name :: (trail ++ above))) =
      levels (pathTo above) (pathTo (trail ++ above)) ++ [pathTo (name :: (trail ++ above))] :=
  levels_of_parents (parents_pathTo_cons h) (not_alike_pathTo h)

def pathsTo (names : List String) : List String → List Path
  | [] => []
  | name :: more => pathTo (name :: names) :: pathsTo (name :: names) more

theorem pathsTo_append (names more : List String) (name : String) :
    pathsTo names (more ++ [name]) =
      pathsTo names more ++ [pathTo (name :: (more.reverse ++ names))] := by
  induction more generalizing names with
  | nil => rfl
  | cons s more ih => simp [pathsTo, ih]

theorem levels_eq (h : AllOrdinary (trail ++ above)) :
    levels (pathTo above) (pathTo (trail ++ above)) = pathsTo above trail.reverse := by
  induction trail with
  | nil => exact levels_of_alike rfl
  | cons name trail ih =>
    rw [List.cons_append, levels_cons h, ih h.tail, List.reverse_cons, pathsTo_append,
      List.reverse_reverse]

theorem startsWith_pathTo (trail : List String) (h : AllOrdinary (trail ++ above)) :
    (pathTo (trail ++ above)).StartsWith (pathTo above) := by
  have hr : AllOrdinary above := h.suffix (List.suffix_append trail above)
  rw [Path.StartsWith, components_pathTo h, components_pathTo hr]
  simp

theorem make_cons (h : AllOrdinary (name :: (trail ++ above))) :
    make (pathTo above) (pathTo (name :: (trail ++ above))) =
      (make (pathTo above) (pathTo (trail ++ above)) >>= fun _ =>
        level (pathTo (name :: (trail ++ above)))) :=
  make_of_parents (parents_pathTo_cons h) (not_alike_pathTo h) (startsWith_pathTo trail h.tail)
    (startsWith_pathTo (name :: trail) h)

theorem makeParent_cons (h : AllOrdinary (name :: (trail ++ above))) :
    makeParent (pathTo above) (pathTo (name :: (trail ++ above))) =
      make (pathTo above) (pathTo (trail ++ above)) := by
  rw [makeParent, parent?_pathTo h]

theorem level_ends (h : fs.Leads names loc) (hn : IsOrdinary name) :
    Ends (level (pathTo (name :: names))) fs
      (fun _ fs' => Grows (fun l node => l = name :: loc ∧ node = .directory mode) fs fs' ∧
        fs'.Leads (name :: names) (name :: loc))
      (fun e fs' => fs' = fs ∧
        (e = .linkDetected ∧ (∃ node, fs.node? (name :: loc) = some node ∧ ¬ node.isDirectory) ∨
          e = .directoryFailed)) := by
  have ho : AllOrdinary ([] ++ [name]) := List.forall_mem_singleton.mpr hn
  have hp : (pathTo names).joined ([] ++ [name]) = pathTo (name :: names) :=
    joined_pathTo h.ordinary ho
  have hends : Ends (level ((pathTo names).joined ([] ++ [name]))) fs _ _ :=
    level_joined_ends h.locate h.isDirectory ho
  rw [hp] at hends
  refine hends.imp ?_ ?_
  · rintro _ fs' ⟨g, hd, hc⟩
    exact ⟨g, (h.grows g).append ho hd hc⟩
  · rintro e fs' ⟨hfs, he⟩
    exact ⟨hfs, he.imp_left fun ⟨he, hstop⟩ => ⟨he, hstop.node⟩⟩

-- All that making one directory after the other can do. If a link is met, nothing was made.
theorem make_ends (h : fs.Leads above base) (ho : AllOrdinary trail) :
    Ends (make (pathTo above) (pathTo (trail ++ above))) fs
      (fun _ fs' => Grows (IsOnTrail base trail) fs fs' ∧
        fs'.Leads (trail ++ above) (trail ++ base))
      (fun e fs' => Grows (IsOnTrail base trail.tail) fs fs' ∧
        (e = .linkDetected ∧ fs' = fs ∨ e = .directoryFailed)) := by
  have hends := make_joined_ends h.locate h.isDirectory ho.reverse
  rw [joined_pathTo h.ordinary ho, List.reverse_reverse] at hends
  refine hends.imp ?_ ?_
  · rintro _ fs' ⟨g, hd, hc⟩
    exact ⟨g, (h.grows g).append ho hd hc⟩
  · rintro e fs' ⟨g, he⟩
    exact ⟨g, he.imp_left fun ⟨he, hfs, _⟩ => ⟨he, hfs⟩⟩

theorem make_of_isDirectory (h : fs.Leads above base) (ho : AllOrdinary trail)
    (hfit : (pathTo (trail ++ above)).text.utf8ByteSize ≤ maxPathBytes)
    (hd : fs.IsDirectory (trail ++ base)) :
    make (pathTo above) (pathTo (trail ++ above)) fs = .ok () fs := by
  obtain ⟨_, hm⟩ := isDirectory_iff.mp hd
  have hz : ∀ s ∈ trail.reverse, '\x00' ∉ s.toList := fun s hs =>
    (isFileName_of_mem hm s (List.mem_append_left base (List.mem_reverse.mp hs))).2.2.2.2.1
  rw [← joined_pathTo h.ordinary ho] at hfit ⊢
  refine make_of_isDirectory_joined h.locate ?_ ho.reverse
    ((checkText_joined h.text ho.reverse hz).mpr hfit)
  rwa [List.reverse_reverse]

end Spelled

end TarGuard.SecureDirectory
