import TarGuard.Proofs.Calls
import TarGuard.Proofs.Destination
import TarGuard.Proofs.PathSize

namespace TarGuard

namespace FileSystem

variable {fs : FileSystem} {purpose : Purpose} {n : Nat} {loc l : Location} {names : List String}
  {name : String}

theorem Walks.exists_node (h : Walks fs purpose n loc names l) (hd : fs.IsDirectory l) :
    ∃ l' node, fs.walk .linkStatus n loc names = .ok l' ∧ fs.node? l' = some node := by
  have hr := Purpose.linkStatus.not_refusesSlash rfl
  induction h with
  | done =>
    have ⟨_, hm⟩ := isDirectory_iff.mp hd
    exact ⟨_, _, walk_nil, hm⟩
  | skip h _ ih =>
    rw [walk_skip h]
    exact ih hd
  | up _ ih =>
    rw [walk_up]
    exact ih hd
  | enter h _ _ ih =>
    rw [walk_directory h (hr _)]
    exact ih hd
  | last _ _ _ _ h => exact absurd hd h
  | follow t h hs hf hw ih =>
    rename_i rest _ _
    by_cases he : rest = []
    case pos =>
      have ⟨hne, hh, hu, _, _, hl⟩ := isFileName_of_node?_cons h
      subst he
      exact ⟨_, _, walk_last hne hh hu hl (fun hf => nomatch hf), h⟩
    case neg =>
      rw [walk_link h (hr _) fun h => absurd h he]
      exact ih hd

theorem Leads.makeDirectory (h : fs.Leads names loc) (mode : UInt32) :
    fs.makeDirectory (pathTo names) mode = .error .alreadyExists := by
  have ⟨l, node, hw, hn⟩ := h.walks.exists_node h.isDirectory
  have hl : fs.locateNewDirectory (pathTo names) = .ok l := by
    rw [locateNewDirectory_pathTo h.ordinary, locate_pathTo h.ordinary, h.text]
    exact hw
  simp only [FileSystem.makeDirectory, hl, bind, Except.bind, hn]
  rfl

theorem haveDirectory_apply (p : Path) (fs : FileSystem) :
    haveDirectory p fs =
      match fs.makeDirectory p defaultDirectoryMode with
      | .ok fs' => .ok () fs'
      | .error e => if fs.isDirectoryAt p then .ok () fs else .error e fs := by
  simp only [haveDirectory, bind, EStateM.bind, get, getThe, MonadStateOf.get, get_apply]
  cases fs.makeDirectory p defaultDirectoryMode with
  | ok => rfl
  | error e =>
    simp only [EStateM.bind, get_apply]
    cases fs.isDirectoryAt p <;> rfl

theorem haveDirectories_apply {p : Path} (hp : p ≠ .empty) (above : List Path) (fs : FileSystem) :
    haveDirectories (p :: above) fs =
      match fs.makeDirectory p defaultDirectoryMode with
      | .error .notFound => (haveDirectories above >>= fun _ => haveDirectory p) fs
      | _ => haveDirectory p fs := by
  rw [haveDirectories, if_neg hp]
  simp only [bind, EStateM.bind, get, getThe, MonadStateOf.get, get_apply]
  cases fs.makeDirectory p defaultDirectoryMode with
  | ok => rfl
  | error e => cases e <;> rfl

theorem isOrdinary_of_isFileName (h : IsFileName name) : IsOrdinary name :=
  ⟨h.1, h.2.1, h.2.2.1, h.2.2.2.1⟩

theorem Leads.haveDirectories (h : fs.Leads names loc) :
    haveDirectories (names.tails.map pathTo) fs = .ok () fs := by
  have hm := h.makeDirectory defaultDirectoryMode
  have hd := h.isDirectoryAt
  cases names with
  | nil | cons =>
    rw [List.tails, List.map_cons, haveDirectories_apply (pathTo_ne_empty _), hm]
    simp only [haveDirectory_apply, hm, hd, if_true]

inductive IsAbsent (fs : FileSystem) : List String → Location → Prop
  | here {s above l} : fs.Leads above l → IsFileName s → fs.node? (s :: l) = none →
    IsAbsent fs (s :: above) (s :: l)
  | further {s above l} : IsAbsent fs above l → IsFileName s → IsAbsent fs (s :: above) (s :: l)

namespace IsAbsent

theorem allOrdinary (h : fs.IsAbsent names loc) : AllOrdinary names := by
  induction h with
  | here h hs => exact h.ordinary.cons (isOrdinary_of_isFileName hs)
  | further _ hs ih => exact ih.cons (isOrdinary_of_isFileName hs)

theorem no_nul (h : fs.IsAbsent names loc) : '\x00' ∉ (pathTo names).text.toList := by
  induction h with
  | here h hs =>
    rw [mem_pathTo_cons, not_or]
    exact ⟨not_mem_of_checkText h.text, hs.2.2.2.2.1⟩
  | further _ hs ih =>
    rw [mem_pathTo_cons, not_or]
    exact ⟨ih, hs.2.2.2.2.1⟩

theorem walk_append {more : List String} (h : fs.IsAbsent names loc) (hm : more ≠ []) :
    fs.walk .linkStatus maxLinks [] (names.reverse ++ more) = .error .notFound := by
  induction h generalizing more with
  | @here s above l h hs hn =>
    have ⟨he, hh, hu, _, _, hl⟩ := hs
    have hr := Purpose.linkStatus.not_refusesSlash rfl more
    obtain ⟨m, hw⟩ := h.walks.exists_walk_append h.isDirectory (List.cons_ne_nil s more)
      (by simp [he])
    obtain ⟨_, hf⟩ := exists_walk_eq_walkFrom fs .linkStatus m
    rw [List.reverse_cons, List.append_assoc, List.singleton_append, hw, hf, walkFrom,
      if_neg (not_or_intro he hh), if_neg hu, if_neg hr, if_neg (by omega), hn]
    exact if_neg hm
  | @further s above l _ hs ih =>
    rw [List.reverse_cons, List.append_assoc]
    exact ih (by simp)

theorem makeDirectory_cons (h : fs.IsAbsent names loc) (hn : IsFileName name)
    (ht : (pathTo (name :: names)).text.utf8ByteSize ≤ maxPathBytes) (mode : UInt32) :
    fs.makeDirectory (pathTo (name :: names)) mode = .error .notFound := by
  have hb : fs.IsAbsent (name :: names) (name :: loc) := h.further hn
  have hc : checkText (pathTo (name :: names)).text = .ok () := by
    rw [checkText, if_neg hb.no_nul, if_neg (text_pathTo_ne_empty _), if_neg (by omega)]
  have hl : fs.locateNewDirectory (pathTo (name :: names)) = .error .notFound := by
    rw [locateNewDirectory_pathTo hb.allOrdinary, locate_pathTo hb.allOrdinary, hc,
      List.reverse_cons]
    exact h.walk_append (List.cons_ne_nil name [])
  rw [makeDirectory, hl]
  rfl

end IsAbsent

-- There is a place for something new in a directory.
structure HasPlaceFor (fs : FileSystem) (name : String) (names : List String) (loc : Location) :
    Prop where
  leads    : fs.Leads names loc
  fileName : IsFileName name
  absent   : fs.node? (name :: loc) = none
  short    : (pathTo (name :: names)).text.utf8ByteSize ≤ maxPathBytes

namespace HasPlaceFor

theorem of_root (hn : IsFileName name) (ha : fs.node? [name] = none) :
    fs.HasPlaceFor name [] [] where
  leads := .nil fs
  fileName := hn
  absent := ha
  short := by
    have hsize : name.utf8ByteSize ≤ 255 := hn.2.2.2.2.2
    rw [utf8ByteSize_pathTo (List.cons_ne_nil name []), List.map_singleton, List.sum_singleton,
      maxPathBytes]
    omega

variable (h : fs.HasPlaceFor name names loc)

include h

theorem isOrdinary : IsOrdinary name :=
  isOrdinary_of_isFileName h.fileName

theorem no_nul : '\x00' ∉ name.toList :=
  h.fileName.2.2.2.2.1

theorem fits : Fits names name :=
  ⟨h.short, h.fileName.2.2.2.2.2⟩

theorem allOrdinary : AllOrdinary (name :: names) :=
  h.leads.ordinary.cons h.isOrdinary

theorem accepts (node : Node) : fs.Accepts (name :: loc) node :=
  h.leads.accepts_cons h.isOrdinary h.no_nul h.fits h.absent node

theorem locate : fs.locate .linkStatus (pathTo (name :: names)) = .ok (name :: loc) := by
  rw [h.leads.locate_cons h.isOrdinary h.no_nul rfl, if_pos h.fits]

theorem grows {new : Location → Node → Prop} {fs' : FileSystem} (g : Grows new fs fs')
    (hn : fs'.node? (name :: loc) = none) : fs'.HasPlaceFor name names loc where
  leads := h.leads.grows g
  fileName := h.fileName
  absent := hn
  short := h.short

theorem put (hn : fs.node? l = none) (hne : name :: loc ≠ l) (node : Node) :
    (fs.put l node).HasPlaceFor name names loc :=
  have g : Grows (fun _ _ => True) fs (fs.put l node) := Grows.put hn trivial
  h.grows g ((node?_put_of_ne hne).trans h.absent)

theorem leads_new :
    (fs.put (name :: loc) (.directory defaultDirectoryMode)).Leads (name :: names) (name :: loc) ∧
      ∀ s, (fs.put (name :: loc) (.directory defaultDirectoryMode)).node? (s :: name :: loc) =
        none := by
  have g : Grows (fun _ _ => True) fs (fs.put (name :: loc) (.directory defaultDirectoryMode)) :=
    Grows.put h.absent trivial
  have hd := isDirectory_put (h.accepts (.directory defaultDirectoryMode))
  refine ⟨(h.leads.grows g).cons h.isOrdinary h.no_nul h.fits hd, fun s => ?_⟩
  rw [node?_put_of_ne (by simp)]
  exact node?_of_suffix h.absent (List.suffix_cons s _)

theorem makeDirectory :
    fs.makeDirectory (pathTo (name :: names)) defaultDirectoryMode =
      .ok (fs.put (name :: loc) (.directory defaultDirectoryMode)) := by
  rw [h.leads.makeDirectory_cons h.isOrdinary h.no_nul, if_pos h.fits, h.absent]

theorem haveDirectory :
    haveDirectory (pathTo (name :: names)) fs =
      .ok () (fs.put (name :: loc) (.directory defaultDirectoryMode)) := by
  rw [haveDirectory_apply, h.makeDirectory]

theorem haveDirectories :
    haveDirectories ((name :: names).tails.map pathTo) fs =
      .ok () (fs.put (name :: loc) (.directory defaultDirectoryMode)) := by
  rw [List.tails_cons, List.map_cons, haveDirectories_apply (pathTo_ne_empty _), h.makeDirectory]
  exact h.haveDirectory

end HasPlaceFor

theorem IsAbsent.haveDirectories (h : fs.IsAbsent names loc)
    (ht : (pathTo names).text.utf8ByteSize ≤ maxPathBytes) :
    ∃ fs', haveDirectories (names.tails.map pathTo) fs = .ok () fs' ∧ fs'.Leads names loc ∧
      ∀ s, fs'.node? (s :: loc) = none := by
  induction h with
  | here h hs hn =>
    have hplace : fs.HasPlaceFor _ _ _ := ⟨h, hs, hn, ht⟩
    exact ⟨_, hplace.haveDirectories, hplace.leads_new⟩
  | further h hs ih =>
    have ⟨fs₁, hup, hl, hb⟩ := ih (Nat.le_trans (utf8ByteSize_pathTo_le_cons _ _) ht)
    have hplace : fs₁.HasPlaceFor _ _ _ := ⟨hl, hs, hb _, ht⟩
    refine ⟨_, ?_, hplace.leads_new⟩
    rw [List.tails_cons, List.map_cons, haveDirectories_apply (pathTo_ne_empty _),
      h.makeDirectory_cons hs ht]
    simp only
    rw [bind_of_ok hup, hplace.haveDirectory]

-- Nothing is there, or an empty directory.
def IsVacant (fs : FileSystem) (names : List String) (loc : Location) : Prop :=
  fs.IsAbsent names loc ∨ fs.Leads names loc ∧ ∀ s, fs.node? (s :: loc) = none

theorem IsVacant.haveDirectories (h : fs.IsVacant names loc)
    (ht : (pathTo names).text.utf8ByteSize ≤ maxPathBytes) :
    ∃ fs', haveDirectories (names.tails.map pathTo) fs = .ok () fs' ∧ fs'.Leads names loc ∧
      ∀ s, fs'.node? (s :: loc) = none := by
  cases h with
  | inl h => exact h.haveDirectories ht
  | inr h => exact ⟨fs, h.1.haveDirectories, h⟩

end FileSystem

namespace Destination

open FileSystem

variable {fs : FileSystem} {names : List String} {base : Location}

theorem prepare_of_haveDirectories {fs' : FileSystem} (hl : fs'.Leads names base)
    (hd : haveDirectories (names.tails.map pathTo) fs = .ok () fs') :
    prepare (pathTo names) fs = .ok () fs' := by
  have hm : (makeDirectories (pathTo names)).adaptExcept
      (fun _ => ExtractError.directoryFailed) fs = .ok () fs' := by
    rw [makeDirectories, parents_pathTo hl.ordinary, EStateM.adaptExcept, hd]
  rw [prepare, bind_of_ok hm]
  simp only [bind, EStateM.bind, get, getThe, MonadStateOf.get, get_apply, hl.isDirectoryAt]
  rfl

theorem prepare_of_leads (h : fs.Leads names base) : prepare (pathTo names) fs = .ok () fs :=
  prepare_of_haveDirectories h h.haveDirectories

theorem prepare_new {name : String} (h : fs.HasPlaceFor name names base) :
    prepare (pathTo (name :: names)) fs =
      .ok () (fs.put (name :: base) (.directory defaultDirectoryMode)) :=
  prepare_of_haveDirectories h.leads_new.1 h.haveDirectories

theorem prepare_of_isVacant (h : fs.IsVacant names base)
    (ht : (pathTo names).text.utf8ByteSize ≤ maxPathBytes) :
    ∃ fs', prepare (pathTo names) fs = .ok () fs' ∧ fs'.Leads names base ∧
      ∀ s, fs'.node? (s :: base) = none := by
  have ⟨fs', hd, hl, hb⟩ := h.haveDirectories ht
  exact ⟨fs', prepare_of_haveDirectories hl hd, hl, hb⟩

end Destination
end TarGuard
