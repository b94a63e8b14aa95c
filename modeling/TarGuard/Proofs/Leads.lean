import TarGuard.Proofs.Normal
import TarGuard.Proofs.Walks

namespace TarGuard.FileSystem

variable {fs fs₁ fs₂ : FileSystem} {loc l : Location} {names : List String} {name : String}
  {purpose : Purpose}

structure Leads (fs : FileSystem) (names : List String) (loc : Location) : Prop where
  ordinary    : AllOrdinary names
  text        : checkText (pathTo names).text = .ok ()
  walks       : Walks fs .status maxLinks [] names.reverse loc
  isDirectory : fs.IsDirectory loc

theorem text_pathTo_ne_empty (names : List String) : (pathTo names).text ≠ "" := fun he => by
  have := toList_pathTo names
  simp [he] at this

theorem locate_pathTo (ho : AllOrdinary names) :
    fs.locate purpose (pathTo names) =
      checkText (pathTo names).text >>= fun _ => fs.walk purpose maxLinks [] names.reverse := by
  rw [locate, startOf_pathTo, lookupPieces_pathTo ho]

theorem locateNewDirectory_pathTo (ho : AllOrdinary names) :
    fs.locateNewDirectory (pathTo names) = fs.locate .linkStatus (pathTo names) := by
  have he : names.reverse.filter (· ≠ "") = names.reverse :=
    List.filter_eq_self.mpr fun t ht => by simpa using (ho.reverse t ht).ne_empty
  rw [locate_pathTo ho, locateNewDirectory, startOf_pathTo, lookupPieces_pathTo ho, he]

theorem walks_of_locate (ho : AllOrdinary names) (h : fs.locate purpose (pathTo names) = .ok loc) :
    checkText (pathTo names).text = .ok () ∧ Walks fs purpose maxLinks [] names.reverse loc := by
  rwa [locate_eq_ok_iff, startOf_pathTo, lookupPieces_pathTo ho] at h

namespace Leads

variable {new : Location → Node → Prop}

theorem of_locate (ho : AllOrdinary names) (h : fs.locate .status (pathTo names) = .ok loc)
    (hd : fs.IsDirectory loc) : fs.Leads names loc :=
  have ⟨ht, hw⟩ := walks_of_locate ho h
  ⟨ho, ht, hw, hd⟩

theorem locate (h : fs.Leads names loc) : fs.locate .status (pathTo names) = .ok loc := by
  rw [locate_pathTo h.ordinary, h.text]
  exact walk_eq_ok_iff.mpr h.walks

theorem nil (fs : FileSystem) : fs.Leads [] [] where
  ordinary := .nil
  text := by
    rw [pathTo_nil]
    decide
  walks := .done
  isDirectory := fs.root_isDirectory

theorem isDirectoryAt (h : fs.Leads names loc) : fs.isDirectoryAt (pathTo names) := by
  have ⟨_, hm⟩ := isDirectory_iff.mp h.isDirectory
  simp [FileSystem.isDirectoryAt, status, existing, h.locate, bind, Except.bind, hm,
    Node.isDirectory]

theorem of_isDirectoryAt (ho : AllOrdinary names) (h : fs.isDirectoryAt (pathTo names)) :
    ∃ loc, fs.Leads names loc := by
  unfold FileSystem.isDirectoryAt status at h
  cases hl : fs.locate .status (pathTo names) with
  | error e => simp [hl, bind, Except.bind] at h
  | ok loc =>
    refine ⟨loc, of_locate ho hl ?_⟩
    simp only [hl, bind, Except.bind, existing] at h
    cases hn : fs.node? loc with
    | none => simp [hn] at h
    | some node => simpa [IsDirectory, hn] using h

theorem grows (g : Grows new fs₁ fs₂) (h : fs₁.Leads names loc) : fs₂.Leads names loc where
  ordinary := h.ordinary
  text := h.text
  walks := h.walks.grows g fun t ht => by
    have ⟨_, hm⟩ := isDirectory_iff.mp (g.isDirectory h.isDirectory)
    cases hm.symm.trans ht
  isDirectory := g.isDirectory h.isDirectory

end Leads

abbrev Fits (names : List String) (name : String) : Prop :=
  (pathTo (name :: names)).text.utf8ByteSize ≤ maxPathBytes ∧ name.utf8ByteSize ≤ 255

theorem checkText_eq_ok_iff {t : String} :
    checkText t = .ok () ↔ '\x00' ∉ t.toList ∧ t ≠ "" ∧ t.utf8ByteSize ≤ maxPathBytes := by
  unfold checkText
  split
  case isTrue hz => simp [hz]
  case isFalse hz =>
    split
    case isTrue he => simp [he]
    case isFalse he =>
      split
      case isTrue hl => simp [hl]
      case isFalse hl => simpa [hz, he] using hl

theorem not_mem_of_checkText {t : String} (h : checkText t = .ok ()) : '\x00' ∉ t.toList :=
  (checkText_eq_ok_iff.mp h).1

theorem utf8ByteSize_le_of_checkText {t : String} (h : checkText t = .ok ()) :
    t.utf8ByteSize ≤ maxPathBytes :=
  (checkText_eq_ok_iff.mp h).2.2

theorem checkText_of_append {t u : String} (h : checkText (t ++ u) = .ok ()) (ht : t ≠ "") :
    checkText t = .ok () := by
  obtain ⟨hz, -, hl⟩ := checkText_eq_ok_iff.mp h
  rw [String.toList_append, List.mem_append, not_or] at hz
  rw [String.utf8ByteSize_append] at hl
  exact checkText_eq_ok_iff.mpr ⟨hz.1, ht, by omega⟩

namespace Leads

variable (h : fs.Leads names loc) (hn : IsOrdinary name) (hz : '\x00' ∉ name.toList)

include h hz in
theorem checkText_cons :
    checkText (pathTo (name :: names)).text =
      if (pathTo (name :: names)).text.utf8ByteSize ≤ maxPathBytes then .ok ()
      else .error .nameTooLong := by
  have hc : '\x00' ∉ (pathTo (name :: names)).text.toList := by
    rw [mem_pathTo_cons, not_or]
    exact ⟨not_mem_of_checkText h.text, hz⟩
  rw [checkText, if_neg hc, if_neg (text_pathTo_ne_empty _)]
  by_cases hl : (pathTo (name :: names)).text.utf8ByteSize ≤ maxPathBytes
  · rw [if_neg (by omega), if_pos hl]
  · rw [if_pos (by omega), if_neg hl]

include h hn hz in
theorem locate_last (hp : purpose.follows = true → ∀ t, fs.node? (name :: loc) ≠ some (.link t)) :
    fs.locate purpose (pathTo (name :: names)) =
      if Fits names name then .ok (name :: loc) else .error .nameTooLong := by
  have ⟨m, hm⟩ := h.walks.exists_walk_append h.isDirectory (List.cons_ne_nil name [])
    (by simpa using hn.ne_empty)
  rw [locate_pathTo (h.ordinary.cons hn), h.checkText_cons hz, List.reverse_cons, hm]
  by_cases hl : (pathTo (name :: names)).text.utf8ByteSize ≤ maxPathBytes
  case neg => rw [if_neg hl, if_neg (fun hf => hl hf.1)]; rfl
  case pos =>
    rw [if_pos hl]
    by_cases hs : name.utf8ByteSize ≤ 255
    case pos =>
      rw [if_pos ⟨hl, hs⟩]
      exact walk_last hn.ne_empty hn.ne_here hn.ne_up hs hp
    case neg =>
      rw [if_neg (fun hf => hs hf.2)]
      exact walk_of_long hn.ne_empty hn.ne_here hn.ne_up hs

include h hn hz in
theorem locate_cons (hp : purpose.follows = false) :
    fs.locate purpose (pathTo (name :: names)) =
      if Fits names name then .ok (name :: loc) else .error .nameTooLong :=
  h.locate_last hn hz fun hf => nomatch hp.symm.trans hf

include h hn hz in
theorem cons (hf : Fits names name) (hd : fs.IsDirectory (name :: loc)) :
    fs.Leads (name :: names) (name :: loc) where
  ordinary := h.ordinary.cons hn
  text := by rw [h.checkText_cons hz, if_pos hf.1]
  walks := by
    have ⟨m, hm⟩ := h.walks.exists_walk_append h.isDirectory (List.cons_ne_nil name [])
      (by simpa using hn.ne_empty)
    have hr := Purpose.status.not_refusesSlash rfl []
    rw [List.reverse_cons, ← walk_eq_ok_iff, hm, walk_directory hd hr, walk_nil]
  isDirectory := hd

theorem suffix_of_locate {q : List String} {b : Location} (h : fs.Leads q l) (hq : q <:+ names)
    (ho : AllOrdinary names) (hb : fs.locate .status (pathTo names) = .ok b)
    (hn : ∀ l' t, l <:+ l' → fs.node? l' ≠ some (.link t)) : l <:+ b := by
  have ⟨r, hr⟩ := hq
  subst hr
  have hor : AllOrdinary r.reverse := AllOrdinary.reverse fun s hs => ho s (by simp [hs])
  by_cases hne : r = []
  case pos =>
    subst hne
    rw [List.nil_append, h.locate] at hb
    cases hb
    exact List.suffix_rfl
  case neg =>
    have hs : r.reverse ≠ [""] := fun he => (hor "" (by simp [he])).ne_empty rfl
    have ⟨m, hm⟩ := h.walks.exists_walk_append h.isDirectory (by simpa using hne) hs
    have ⟨_, hw⟩ := walks_of_locate ho hb
    rw [List.reverse_append, ← walk_eq_ok_iff, hm, walk_eq_ok_iff] at hw
    refine hw.suffix_of_not_link (fun s hs => ?_) List.suffix_rfl hn
    have ho := hor s hs
    exact ⟨ho.ne_empty, ho.ne_here, ho.ne_up⟩

end Leads

end TarGuard.FileSystem
