import TarGuard.Proofs.Calls
import TarGuard.Proofs.Prefixes

namespace TarGuard.FileSystem

open TarGuard.Path

variable {fs fs₁ fs₂ : FileSystem} {purpose : Purpose} {loc l : Location} {n : Nat}
  {names names' rest vs : List String} {p : Path} {cs : List Component} {c : Component}

def move (l : Location) : Component → Location
  | .name s => s :: l
  | .up => l.tail
  | .root | .here => l

theorem isDirectory_tail (h : fs.IsDirectory l) : fs.IsDirectory l.tail := by
  cases l with
  | nil => exact h
  | cons s l =>
    have ⟨_, hm⟩ := isDirectory_iff.mp h
    exact isDirectory_of_node?_cons hm

theorem startOf_of_isAbsolute (h : p.IsAbsolute) (loc : Location) : startOf p.text loc = [] :=
  if_pos h

theorem not_isVoid_of_node? {s : String} {node : Node} (h : fs.node? (s :: loc) = some node) :
    ¬ IsVoid s := by
  have ⟨he, hh, _⟩ := isFileName_of_node?_cons h
  rw [isVoid_iff]
  exact not_or_intro he hh

theorem Walks.of_void (hv : ∀ s ∈ vs, IsVoid s) (h : Walks fs purpose n loc rest l) :
    Walks fs purpose n loc (vs ++ rest) l := by
  induction vs with
  | nil => exact h
  | cons s vs ih =>
    have ⟨hs, hvs⟩ := List.forall_mem_cons.mp hv
    exact .skip (isVoid_iff.mp hs) (ih hvs)

theorem Walks.void (hv : ∀ s ∈ vs, IsVoid s) : Walks fs purpose n loc vs loc := by
  have h : Walks fs purpose n loc (vs ++ []) loc := .of_void hv .done
  rwa [List.append_nil] at h

theorem Walks.eq_of_void (hv : ∀ s ∈ vs, IsVoid s) (h : Walks fs purpose n loc vs l) : l = loc := by
  have hw : fs.walk purpose n loc vs = .ok loc := walk_eq_ok_iff.mpr (.void hv)
  rw [← walk_eq_ok_iff, hw] at h
  exact (Except.ok.inj h).symm

theorem telling_eq_cons {s : String} (h : telling names' = telling (s :: rest))
    (hs : ¬ IsVoid s) : ∃ vs rest', names' = vs ++ s :: rest' ∧ (∀ t ∈ vs, IsVoid t) ∧
      telling rest' = telling rest := by
  rw [telling, telling, List.filter_cons_of_pos (by simpa using hs),
    List.filter_eq_cons_iff] at h
  obtain ⟨vs, rest', hn, hvs, _, hr⟩ := h
  exact ⟨vs, rest', hn, by simpa using hvs, hr⟩

theorem Walks.of_telling (h : Walks fs .status n loc names l) (hd : fs.IsDirectory l)
    (ht : telling names' = telling names) : Walks fs .status n loc names' l := by
  have hslash := Purpose.status.not_refusesSlash rfl
  induction h generalizing names' with
  | done => exact .void (telling_eq_nil_iff.mp ht)
  | skip hs _ ih =>
    have hs := isVoid_iff.mpr hs
    exact ih hd (ht.trans (List.filter_cons_of_neg (by simp [hs])))
  | up _ ih =>
    obtain ⟨vs, rest', rfl, hvs, hr⟩ := telling_eq_cons ht (by decide)
    exact .of_void hvs (.up (ih hd hr))
  | enter he _ _ ih =>
    have ⟨_, hm⟩ := isDirectory_iff.mp he
    obtain ⟨vs, rest', rfl, hvs, hr⟩ := telling_eq_cons ht (not_isVoid_of_node? hm)
    exact .of_void hvs (.enter he (hslash rest') (ih hd hr))
  | last _ _ _ _ hn => exact absurd hd hn
  | follow t hl _ _ _ ih =>
    obtain ⟨vs, rest', rfl, hvs, hr⟩ := telling_eq_cons ht (not_isVoid_of_node? hl)
    refine .of_void hvs (.follow t hl (hslash rest') (fun _ => rfl) (ih hd ?_))
    rw [telling_append, telling_append, hr]

theorem Walks.isDirectory_of_void (h : Walks fs purpose n loc names l)
    (hv : ∀ s ∈ names.getLast?, IsVoid s) (hd : fs.IsDirectory loc) : fs.IsDirectory l := by
  have htail {s : String} {rest : List String} (h : ∀ t ∈ (s :: rest).getLast?, IsVoid t) :
      ∀ t ∈ rest.getLast?, IsVoid t := fun t ht => h t (by
    rw [Option.mem_def] at ht
    rw [List.getLast?_cons, ht]
    rfl)
  induction h with
  | done => exact hd
  | skip _ _ ih => exact ih (htail hv) hd
  | up _ ih => exact ih (htail hv) (isDirectory_tail hd)
  | enter he _ _ ih => exact ih (htail hv) he
  | last he hh => exact absurd (isVoid_iff.mp (hv _ rfl)) (not_or_intro he hh)
  | @follow s loc rest n l t hl _ _ _ ih =>
    refine ih ?_ ?_
    · cases rest with
      | nil => exact absurd (hv s rfl) (not_isVoid_of_node? hl)
      | cons u rest =>
        rw [List.getLast?_append_of_ne_nil _ (List.cons_ne_nil u rest)]
        exact htail hv
    · unfold startOf
      split
      · exact fs.root_isDirectory
      · exact hd

theorem Walks.move_cases (h : Walks fs .linkStatus n l (c.text :: vs) loc) (hc : IsMove c)
    (hv : ∀ s ∈ vs, IsVoid s) (hd : fs.IsDirectory l) :
    loc = move l c ∧ (fs.IsDirectory loc ∨ ∃ s, IsOrdinary s ∧ c = .name s ∧ s.utf8ByteSize ≤ 255) ∨
      vs ≠ [] ∧ fs.IsDirectory loc ∧ ∃ t, fs.node? (move l c) = some (.link t) := by
  rcases hc with rfl | ⟨s, hs, rfl⟩
  case inl =>
    have hw : fs.walk .linkStatus n l.tail vs = .ok loc := by
      rw [← walk_up, walk_eq_ok_iff]
      exact h
    have hloc := (walk_eq_ok_iff.mp hw).eq_of_void hv
    exact .inl ⟨hloc, .inl (hloc ▸ isDirectory_tail hd)⟩
  case inr =>
    have hdir (hne : vs ≠ []) : fs.IsDirectory loc := by
      refine h.isDirectory_of_void (fun t ht => hv t (List.mem_of_mem_getLast? ?_)) hd
      rwa [← List.singleton_append, List.getLast?_append_of_ne_nil _ hne] at ht
    cases h with
    | skip he => exact absurd he (not_or_intro hs.ne_empty hs.ne_here)
    | up => exact absurd rfl hs.ne_up
    | enter he _ hw =>
      have hloc := hw.eq_of_void hv
      exact .inl ⟨hloc, .inl (hloc ▸ he)⟩
    | last _ _ _ hl => exact .inl ⟨rfl, .inr ⟨s, hs, rfl, hl⟩⟩
    | follow t hl _ hf =>
      have hne : vs ≠ [] := fun he => by cases hf he
      exact .inr ⟨hne, hdir hne, t, hl⟩

structure LeadsAlong (fs : FileSystem) (cs : List Component) (l : Location) : Prop where
  walks       : Walks fs .status maxLinks [] (cs.map Component.text) l
  isDirectory : fs.IsDirectory l

namespace LeadsAlong

theorem of_locate (hc : p.components = .root :: cs) (h : fs.locate .status p = .ok l)
    (hd : fs.IsDirectory l) : fs.LeadsAlong cs l where
  walks := by
    have ha := isAbsolute_of_components hc
    have ⟨_, hw⟩ := locate_eq_ok_iff.mp h
    rw [startOf_of_isAbsolute ha] at hw
    refine hw.of_telling hd ?_
    rw [telling_map_text (isMove_of_components hc), telling_lookupPieces hc ha]
  isDirectory := hd

theorem grows {new : Location → Node → Prop} (g : Grows new fs₁ fs₂) (h : fs₁.LeadsAlong cs l) :
    fs₂.LeadsAlong cs l where
  walks := h.walks.grows g fun t ht => by
    have ⟨_, hm⟩ := isDirectory_iff.mp (g.isDirectory h.isDirectory)
    cases hm.symm.trans ht
  isDirectory := g.isDirectory h.isDirectory

theorem snoc (h : fs.LeadsAlong cs l) (hc : IsMove c) (hd : fs.IsDirectory (move l c)) :
    fs.LeadsAlong (cs ++ [c]) (move l c) where
  walks := by
    have hne : [c.text] ≠ [""] := fun he => by
      have hv := hc.not_isVoid
      rw [List.singleton_inj.mp he] at hv
      cases hv
    have ⟨m, hm⟩ := h.walks.exists_walk_append h.isDirectory (List.cons_ne_nil c.text []) hne
    rw [List.map_append, List.map_singleton, ← walk_eq_ok_iff, hm]
    rcases hc with rfl | ⟨s, _, rfl⟩
    · exact walk_up.trans walk_nil
    · exact (walk_directory hd (Purpose.status.not_refusesSlash rfl [])).trans walk_nil
  isDirectory := hd

theorem exists_walk (h : fs.LeadsAlong cs l) (hc : IsMove c)
    (ht : telling names = (cs ++ [c]).map Component.text) :
    ∃ front vs m, names = front ++ c.text :: vs ∧ (∀ s ∈ vs, IsVoid s) ∧
      ∀ purpose, fs.walk purpose maxLinks [] names = fs.walk purpose m l (c.text :: vs) := by
  rw [List.map_append, telling, List.filter_eq_append_iff] at ht
  obtain ⟨before, after, rfl, hb, ha⟩ := ht
  obtain ⟨skipped, vs, rfl, hs, _, hv⟩ := List.filter_eq_cons_iff.mp ha
  have hskip : telling skipped = [] := telling_eq_nil_iff.mpr (by simpa using hs)
  have hw : Walks fs .status maxLinks [] (before ++ skipped) l := by
    refine h.walks.of_telling h.isDirectory ?_
    rw [telling_append, hskip, List.append_nil, ← hb, telling, telling, List.filter_filter]
    simp
  have hne : c.text :: vs ≠ [""] := fun he => by
    have hv := hc.not_isVoid
    rw [(List.cons.inj he).1] at hv
    cases hv
  obtain ⟨m, hm⟩ := hw.exists_walk_append h.isDirectory (List.cons_ne_nil c.text vs) hne
  refine ⟨before ++ skipped, vs, m, by simp, telling_eq_nil_iff.mp hv, fun purpose => ?_⟩
  rw [← hm, List.append_assoc]

end LeadsAlong

end TarGuard.FileSystem
