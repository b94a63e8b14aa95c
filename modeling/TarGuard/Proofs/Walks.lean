import TarGuard.Proofs.Growth

namespace TarGuard.FileSystem

abbrev Purpose.RefusesSlash (purpose : Purpose) (rest : List String) : Prop :=
  purpose.creates = true ∧ rest = [""]

theorem Purpose.not_refusesSlash (purpose : Purpose) (h : purpose.creates = false)
    (rest : List String) : ¬ purpose.RefusesSlash rest :=
  fun hr => by cases h.symm.trans hr.1

inductive Walks (fs : FileSystem) (purpose : Purpose) :
    Nat → Location → List String → Location → Prop
  | done : Walks fs purpose n loc [] loc
  | skip : s = "" ∨ s = "." → Walks fs purpose n loc rest l → Walks fs purpose n loc (s :: rest) l
  | up : Walks fs purpose n loc.tail rest l → Walks fs purpose n loc (".." :: rest) l
  | enter : fs.IsDirectory (s :: loc) → ¬ purpose.RefusesSlash rest →
    Walks fs purpose n (s :: loc) rest l → Walks fs purpose n loc (s :: rest) l
  | last {n : Nat} {s : String} {loc : Location} : s ≠ "" → s ≠ "." → s ≠ ".." →
    s.utf8ByteSize ≤ 255 → ¬ fs.IsDirectory (s :: loc) →
    (purpose.follows = true → ∀ t, fs.node? (s :: loc) ≠ some (.link t)) →
    Walks fs purpose n loc [s] (s :: loc)
  | follow (t : String) : fs.node? (s :: loc) = some (.link t) → ¬ purpose.RefusesSlash rest →
    (rest = [] → purpose.follows = true) →
    Walks fs purpose n (startOf t loc) (lookupPieces t ++ rest) l →
    Walks fs purpose (n + 1) loc (s :: rest) l

variable {fs fs₁ fs₂ : FileSystem} {loc l : Location} {names rest : List String} {s name : String}
  {purpose : Purpose} {n : Nat}

theorem exists_walk_eq_walkFrom (fs : FileSystem) (purpose : Purpose) (n : Nat) :
    ∃ onLink, fs.walk purpose n = walkFrom fs purpose onLink := by
  cases n with
  | zero => exact ⟨_, rfl⟩
  | succ n => exact ⟨_, rfl⟩

theorem walk_nil : fs.walk purpose n loc [] = .ok loc := by
  have ⟨_, h⟩ := exists_walk_eq_walkFrom fs purpose n
  rw [h, walkFrom]

theorem walk_skip (h : s = "" ∨ s = ".") :
    fs.walk purpose n loc (s :: rest) = fs.walk purpose n loc rest := by
  have ⟨_, hw⟩ := exists_walk_eq_walkFrom fs purpose n
  rw [hw, walkFrom, if_pos h]

theorem walk_up : fs.walk purpose n loc (".." :: rest) = fs.walk purpose n loc.tail rest := by
  have ⟨_, hw⟩ := exists_walk_eq_walkFrom fs purpose n
  rw [hw, walkFrom, if_neg (by decide), if_pos rfl]

theorem walk_directory (h : fs.IsDirectory (s :: loc)) (hr : ¬ purpose.RefusesSlash rest) :
    fs.walk purpose n loc (s :: rest) = fs.walk purpose n (s :: loc) rest := by
  have ⟨_, hw⟩ := exists_walk_eq_walkFrom fs purpose n
  have ⟨mode, hm⟩ := isDirectory_iff.mp h
  have ⟨he, hh, hu, _, _, hl⟩ := isFileName_of_node?_cons hm
  rw [hw, walkFrom, if_neg (not_or_intro he hh), if_neg hu, if_neg hr, if_neg (by omega), hm]

theorem walk_file {f : File} (h : fs.node? (s :: loc) = some (.file f))
    (hr : ¬ purpose.RefusesSlash rest) (hne : rest ≠ []) :
    fs.walk purpose n loc (s :: rest) = .error .notDirectory := by
  have ⟨_, hw⟩ := exists_walk_eq_walkFrom fs purpose n
  have ⟨he, hh, hu, _, _, hl⟩ := isFileName_of_node?_cons h
  rw [hw, walkFrom, if_neg (not_or_intro he hh), if_neg hu, if_neg hr, if_neg (by omega), h]
  exact if_neg hne

theorem walk_link {t : String} (h : fs.node? (s :: loc) = some (.link t))
    (hr : ¬ purpose.RefusesSlash rest) (hf : rest = [] → purpose.follows = true) :
    fs.walk purpose (n + 1) loc (s :: rest) =
      fs.walk purpose n (startOf t loc) (lookupPieces t ++ rest) := by
  have ⟨he, hh, hu, _, _, hl⟩ := isFileName_of_node?_cons h
  rw [walk, walkFrom, if_neg (not_or_intro he hh), if_neg hu, if_neg hr, if_neg (by omega), h]
  simp only
  rw [if_neg (by simpa using hf)]

theorem walk_last (he : s ≠ "") (hh : s ≠ ".") (hu : s ≠ "..") (hl : s.utf8ByteSize ≤ 255)
    (hf : purpose.follows = true → ∀ t, fs.node? (s :: loc) ≠ some (.link t)) :
    fs.walk purpose n loc [s] = .ok (s :: loc) := by
  have ⟨_, hw⟩ := exists_walk_eq_walkFrom fs purpose n
  rw [hw, walkFrom, if_neg (not_or_intro he hh), if_neg hu, if_neg (by simp), if_neg (by omega)]
  split
  · rfl
  · rfl
  · rfl
  · have : ¬ purpose.follows = true := fun hp => hf hp _ ‹_›
    simp [this]

theorem walk_of_long (he : s ≠ "") (hh : s ≠ ".") (hu : s ≠ "..") (hl : ¬ s.utf8ByteSize ≤ 255) :
    fs.walk purpose n loc [s] = .error .nameTooLong := by
  have ⟨_, hw⟩ := exists_walk_eq_walkFrom fs purpose n
  rw [hw, walkFrom, if_neg (not_or_intro he hh), if_neg hu, if_neg (by simp), if_pos (by omega)]

theorem Walks.of_walkFrom {onLink : Location → List String → Except SystemError Location}
    (hl : ∀ s loc rest t, fs.node? (s :: loc) = some (.link t) → ¬ purpose.RefusesSlash rest →
      (rest = [] → purpose.follows = true) →
      onLink (startOf t loc) (lookupPieces t ++ rest) = .ok l →
      Walks fs purpose n loc (s :: rest) l)
    (h : walkFrom fs purpose onLink loc names = .ok l) : Walks fs purpose n loc names l := by
  -- On the names, and for each of them through the branches of `walkFrom` in their order.
  induction names generalizing loc with
  | nil =>
    cases h
    exact .done
  | cons s rest ih =>
    rw [walkFrom] at h
    split at h
    case isTrue hv => exact .skip hv (ih h)
    case isFalse hv =>
    have ⟨he, hh⟩ := not_or.mp hv
    split at h
    case isTrue hu => exact hu ▸ .up (ih h)
    case isFalse hu =>
    split at h
    case isTrue => cases h
    case isFalse hr =>
    split at h
    case isTrue => cases h
    case isFalse hs =>
    have hlast (hd : ¬ fs.IsDirectory (s :: loc))
        (hf : purpose.follows = true → ∀ t, fs.node? (s :: loc) ≠ some (.link t)) :
        Walks fs purpose n loc [s] (s :: loc) :=
      .last he hh hu (by omega) hd hf
    split at h
    case h_1 hn =>
      split at h <;> cases h
      subst rest
      exact hlast (by simp [IsDirectory, hn]) (by simp [hn])
    case h_2 hn => exact .enter (isDirectory_of_node? hn) hr (ih h)
    case h_3 hn =>
      split at h <;> cases h
      subst rest
      exact hlast (by simp [IsDirectory, hn, Node.isDirectory]) (by simp [hn])
    case h_4 t hn =>
      split at h
      case isTrue hp =>
        cases h
        cases hp.1
        exact hlast (by simp [IsDirectory, hn, Node.isDirectory]) fun hf => absurd hf hp.2
      case isFalse hp => exact hl s loc rest t hn hr (by simpa using hp) h

theorem walk_eq_ok_iff : fs.walk purpose n loc names = .ok l ↔ Walks fs purpose n loc names l := by
  constructor
  case mpr =>
    intro h
    induction h with
    | done => exact walk_nil
    | skip h _ ih => rwa [walk_skip h]
    | up _ ih => rwa [walk_up]
    | enter h hr _ ih => rwa [walk_directory h hr]
    | last he hh hu hl _ hf => exact walk_last he hh hu hl hf
    | follow t h hr hf _ ih => rwa [walk_link h hr hf]
  case mp =>
    induction n generalizing loc names with
    | zero => exact Walks.of_walkFrom fun _ _ _ _ _ _ _ h => nomatch h
    | succ n ih => exact Walks.of_walkFrom fun _ _ _ t hn hr hf h => .follow t hn hr hf (ih h)

theorem locate_eq_ok_iff {p : Path} :
    fs.locate purpose p = .ok l ↔ checkText p.text = .ok () ∧
      Walks fs purpose maxLinks (startOf p.text fs.current) (lookupPieces p.text) l := by
  rw [← walk_eq_ok_iff, locate]
  cases checkText p.text <;> simp [bind, Except.bind]

-- What grows leads where it led before. A node that was not there is not looked for as a link.
theorem Walks.grows {new : Location → Node → Prop} (g : Grows new fs₁ fs₂)
    (h : Walks fs₁ purpose n loc names l) (hl : ∀ t, fs₂.node? l ≠ some (.link t)) :
    Walks fs₂ .status n loc names l := by
  have hr := Purpose.status.not_refusesSlash rfl
  induction h with
  | done => exact .done
  | skip h _ ih => exact .skip h (ih hl)
  | up _ ih => exact .up (ih hl)
  | enter h _ _ ih => exact .enter (g.isDirectory h) (hr _) (ih hl)
  | @last n s loc he hh hu hs _ _ =>
    by_cases hd : fs₂.IsDirectory (s :: loc)
    case pos => exact .enter hd (hr _) .done
    case neg => exact .last he hh hu hs hd fun _ => hl
  | follow t h _ _ _ ih => exact .follow t (g.kept h) (hr _) (fun _ => rfl) (ih hl)

theorem locate_of_grows {new : Location → Node → Prop} {p : Path}
    (h : fs₁.locate purpose p = .ok l) (g : Grows new fs₁ fs₂)
    (hl : ∀ t, fs₂.node? l ≠ some (.link t)) : fs₂.locate .status p = .ok l := by
  obtain ⟨ht, hw⟩ := locate_eq_ok_iff.mp h
  rw [← g.current] at hw
  exact locate_eq_ok_iff.mpr ⟨ht, hw.grows g hl⟩

theorem Walks.exists_walk_append {more : List String} (h : Walks fs purpose n loc names l)
    (hd : fs.IsDirectory l) (hne : more ≠ []) (hs : more ≠ [""]) :
    ∃ m, ∀ purpose, fs.walk purpose n loc (names ++ more) = fs.walk purpose m l more := by
  have hr (purpose : Purpose) (rest : List String) : ¬ purpose.RefusesSlash (rest ++ more) := by
    intro ⟨_, he⟩
    cases List.append_eq_singleton_iff.mp he with
    | inl h => exact hs h.2
    | inr h => exact hne h.2
  induction h with
  | done => exact ⟨_, fun _ => rfl⟩
  | skip h _ ih =>
    have ⟨m, hm⟩ := ih hd
    exact ⟨m, fun purpose => by rw [List.cons_append, walk_skip h, hm]⟩
  | up _ ih =>
    have ⟨m, hm⟩ := ih hd
    exact ⟨m, fun purpose => by rw [List.cons_append, walk_up, hm]⟩
  | enter h _ _ ih =>
    have ⟨m, hm⟩ := ih hd
    exact ⟨m, fun purpose => by rw [List.cons_append, walk_directory h (hr purpose _), hm]⟩
  | last _ _ _ _ h => exact absurd hd h
  | follow t h _ _ _ ih =>
    have ⟨m, hm⟩ := ih hd
    refine ⟨m, fun purpose => ?_⟩
    rw [List.cons_append, walk_link h (hr purpose _) (by simp [hne]), ← List.append_assoc, hm]

theorem Walks.suffix_of_not_link {b : Location} (h : Walks fs purpose n loc names b)
    (ho : ∀ s ∈ names, s ≠ "" ∧ s ≠ "." ∧ s ≠ "..") (hl : l <:+ loc)
    (hn : ∀ l' t, l <:+ l' → fs.node? l' ≠ some (.link t)) : l <:+ b := by
  induction h with
  | done => exact hl
  | skip hv =>
    have ⟨he, hh, _⟩ := ho _ List.mem_cons_self
    exact absurd hv (not_or_intro he hh)
  | up => exact absurd rfl (ho _ List.mem_cons_self).2.2
  | enter _ _ _ ih =>
    exact ih (fun s hs => ho s (List.mem_cons_of_mem _ hs)) (hl.trans (List.suffix_cons _ _))
  | last => exact hl.trans (List.suffix_cons _ _)
  | follow t ht => exact absurd ht (hn _ t (hl.trans (List.suffix_cons _ _)))

end TarGuard.FileSystem
