import TarGuard.Proofs.PathSize
import TarGuard.Proofs.SecureDirectory

namespace TarGuard.SecureDirectory

open FileSystem

variable {fs fs' : FileSystem} {root : Path} {base : Location} {names : List String} {s : String}

theorem make_eq (root dir : Path) :
    make root dir =
      if dir.Alike root then pure ()
      else if dir.StartsWith root then makeParent root dir >>= fun _ => level dir
      else throw .pathTraversal := by
  by_cases ha : dir.Alike root
  case pos => rw [if_pos ha, make_of_alike ha]
  case neg =>
    rw [if_neg ha]
    by_cases hs : dir.StartsWith root
    case neg => rw [if_neg hs, make, if_neg hs]
    case pos =>
      rw [if_pos hs, makeParent, Path.parent?]
      rcases dir.parents_cases with hp | ⟨q, c, hp, hc⟩
      case inl =>
        have hlevels : levels root dir = [dir] := by
          rw [levels, hp, List.takeWhile_cons_of_pos (by simpa using ha)]
          rfl
        rw [make, if_pos hs, hlevels, hp]
        simp
      case inr =>
        have hq : q.StartsWith root := by
          rw [Path.StartsWith, hc, List.prefix_concat_iff] at hs
          exact hs.resolve_left fun he => ha (hc.trans he.symm)
        rw [make_of_parents hp ha hq hs, hp]
        rfl

theorem length_components_parent {dir parent : Path} (h : dir.parent? = some parent) :
    parent.components.length < dir.components.length := by
  rw [Path.parent?] at h
  rcases dir.parents_cases with hp | ⟨q, c, hp, hc⟩
  · simp [hp] at h
  · rw [hp, List.head?_cons, Option.some.injEq] at h
    rw [hc, ← h, List.length_append, List.length_singleton]
    exact Nat.lt_succ_self _

section Run

theorem StopsAt.make_eq (h : StopsAt fs root base names s) (hb : fs.locate .status root = .ok base)
    (ho : AllOrdinary (names ++ [s])) :
    make root (root.joined (names ++ [s])) fs = .error .linkDetected fs := by
  have ⟨hr, _⟩ := locate_eq_ok_iff.mp hb
  obtain ⟨node, hn, hd⟩ := h.node
  have hfile := isFileName_of_mem hn
  have hz : ∀ t ∈ names ++ [s], '\x00' ∉ t.toList := by
    rw [← List.cons_append, ← List.reverse_concat] at hfile
    intro t ht
    exact (hfile t (List.mem_append_left base (List.mem_reverse.mpr ht))).2.2.2.2.1
  have hc := (checkText_joined hr ho hz).mpr h.short
  have habove := h.above names List.prefix_rfl
  have hmake := make_of_isDirectory_joined hb habove ho.front (checkText_of_joined_concat hr ho hc)
  rw [make_joined_concat ho, bind_of_ok hmake, level_joined hb habove ho,
    if_pos ⟨hc, (isFileName_of_node?_cons hn).2.2.2.2.2⟩, hn]
  cases node <;> first | rfl | exact absurd rfl hd

theorem make_error_mono {more : List String} {e : ExtractError}
    (h : make root (root.joined names) fs = .error e fs') (ho : AllOrdinary more)
    (hp : names <+: more) : make root (root.joined more) fs = .error e fs' := by
  obtain ⟨rest, rfl⟩ := hp
  induction rest using List.reverseRecOn with
  | nil => rwa [List.append_nil]
  | append_singleton rest s ih =>
    rw [← List.append_assoc] at ho ⊢
    rw [make_joined_concat ho]
    exact bind_of_error (ih ho.front)

-- What there is once all levels have been made: each of them is a directory, which is reached
-- without a link, and of those that were missing only the owner may enter.
structure HasLevels (root : Path) (base : Location) (names : List String) (fs fs' : FileSystem) :
    Prop where
  grows     : Grows (IsOnTrail base names.reverse) fs fs'
  directory : ∀ q, q <+: names → fs'.IsDirectory (q.reverse ++ base)
  made      : ∀ q, q <+: names → fs.node? (q.reverse ++ base) = none →
    fs'.node? (q.reverse ++ base) = some (.directory mode)
  located   : ∀ q, q <+: names → q ≠ [] →
    fs'.locate .linkStatus (root.joined q) = .ok (q.reverse ++ base)

theorem hasLevels (hb : fs'.locate .status root = .ok base)
    (g : Grows (IsOnTrail base names.reverse) fs fs')
    (hd : fs'.IsDirectory (names.reverse ++ base)) (ho : AllOrdinary names)
    (hc : checkText (root.joined names).text = .ok ()) : HasLevels root base names fs fs' where
  grows := g
  directory q hq := hd.above (reverse_append_suffix hq)
  made q hq hn := by
    obtain ⟨m, hm⟩ := isDirectory_iff.mp (hd.above (reverse_append_suffix hq))
    obtain ⟨he, _⟩ := g.added hn hm
    rw [hm, he]
  located q hq hne := by
    obtain ⟨front, s, rfl⟩ := (List.eq_nil_or_concat q).resolve_left hne
    rw [List.concat_eq_append] at *
    have ⟨hr, _⟩ := locate_eq_ok_iff.mp hb
    have hdir : fs'.IsDirectory ((front ++ [s]).reverse ++ base) :=
      hd.above (reverse_append_suffix hq)
    rw [List.reverse_concat, List.cons_append] at hdir ⊢
    obtain ⟨_, hm⟩ := isDirectory_iff.mp hdir
    rw [locate_joined_concat hb (isDirectory_of_node?_cons hm) (ho.initial hq)
      (checkText_joined_mono hr ho hc hq), if_pos (isFileName_of_node?_cons hm).2.2.2.2.2]

theorem make_joined (fs : FileSystem) (root : Path) :
    (∀ base names, fs.locate .status root = .ok base → fs.IsDirectory base → AllOrdinary names →
      (∀ fs', make root (root.joined names) fs = .ok () fs' →
        HasLevels root base names fs fs' ∧ make root (root.joined names) fs' = .ok () fs') ∧
      (∀ fs', make root (root.joined names) fs = .error .linkDetected fs' ↔
        fs' = fs ∧ ∃ q s, q ++ [s] <+: names ∧ StopsAt fs root base q s) ∧
      ∀ e fs', make root (root.joined names) fs = .error e fs' → e ≠ .linkDetected →
        e = .directoryFailed ∧ Grows (IsOnTrail base names.reverse) fs fs') ∧
    ∀ dir,
      make root dir =
        (if dir.Alike root then pure ()
        else if dir.StartsWith root then makeParent root dir >>= fun _ => level dir
        else throw .pathTraversal) ∧
      ∀ parent, dir.parent? = some parent →
        parent.components.length < dir.components.length := by
  refine ⟨fun base names hb hd ho => ?_, fun dir => ⟨make_eq root dir, ?_⟩⟩
  case refine_2 => exact fun _ => length_components_parent
  have hends := make_joined_ends hb hd ho
  refine ⟨fun fs' hm => ?done, fun fs' => ⟨fun hm => ?stopped, ?stops⟩, fun e fs' hm he => ?failed⟩
  case done =>
    obtain ⟨g, hdir, hc⟩ := hends.of_ok hm
    have hb' := locate_of_grows_directory hb hd g
    exact ⟨hasLevels hb' g hdir ho hc, make_of_isDirectory_joined hb' hdir ho hc⟩
  case stopped =>
    obtain ⟨_, ⟨_, hfs, hstop⟩ | he⟩ := hends.of_error hm
    · exact ⟨hfs, hstop⟩
    · cases he
  case stops =>
    -- The levels behind the obstacle are not reached.
    rintro ⟨rfl, q, s, hq, hstop⟩
    exact make_error_mono (hstop.make_eq hb (ho.initial hq)) ho hq
  case failed =>
    obtain ⟨g, ⟨hlink, _⟩ | he'⟩ := hends.of_error hm
    · exact absurd hlink he
    · exact ⟨he', g.mono fun _ _ hw => hw.mono (List.tail_suffix _)⟩

theorem make_joined_linked :
    let fs := ((FileSystem.root 0).put ["d"] (.directory mode)).put ["l", "d"] (.link "gone")
    let root : Path := ⟨"."⟩
    fs.locate .status root = .ok [] ∧ fs.IsDirectory [] ∧ AllOrdinary ["d", "l", "x"] ∧
      make root (root.joined ["d", "l", "x"]) fs = .error .linkDetected fs ∧
      ∀ fs', make root (root.joined ["d"]) fs = .ok () fs' → fs' = fs := by
  intro fs root
  have hb : fs.locate .status root = .ok [] := by decide
  have hd : fs.IsDirectory [] := by decide
  have ho : AllOrdinary ["d", "l", "x"] := by
    simp only [AllOrdinary, List.forall_mem_cons]
    refine ⟨?_, ?_, ?_, by simp⟩ <;> exact ⟨by decide, by decide, by decide, by decide⟩
  have hdir : fs.IsDirectory (List.reverse ["d"] ++ []) := by decide
  obtain ⟨hmake, _⟩ := make_joined fs root
  obtain ⟨_, hlink, _⟩ := hmake [] ["d", "l", "x"] hb hd ho
  refine ⟨hb, hd, ho, (hlink fs).mpr ⟨rfl, ["d"], "l", by decide, ?_⟩, fun fs' hm => ?_⟩
  · exact ⟨fun q hq => hdir.above (reverse_append_suffix hq), ⟨_, rfl, by decide⟩, by decide⟩
  · have hone : AllOrdinary ["d"] := fun s hs =>
      ho s (List.mem_singleton.mp hs ▸ List.mem_cons_self)
    obtain ⟨hdone, _⟩ := hmake [] ["d"] hb hd hone
    exact eq_of_grows_onTrail (hdone fs' hm).1.grows hdir

end Run

section Limit

def dotted (n : Nat) : Path :=
  ⟨"." ++ String.ofList (List.replicate n '/')⟩

theorem text_dotted_succ (n : Nat) : (dotted (n + 1)).text = (dotted n).text ++ "/" ++ "" := by
  rw [← String.toList_inj]
  simp [dotted, List.replicate_succ']

theorem words_dotted (n : Nat) : (dotted n).words = ["."] := by
  induction n with
  | zero => rfl
  | succ n ih =>
    have h := Path.words_append (dotted n).text ""
    rw [← text_dotted_succ] at h
    exact h.trans (by rw [show Path.words ⟨(dotted n).text⟩ = _ from ih]; rfl)

theorem utf8ByteSize_dotted (n : Nat) : (dotted n).text.utf8ByteSize = n + 1 := by
  have hsize : '/'.utf8Size = 1 := by decide
  have hslashes := utf8ByteSize_ofList (List.replicate n '/')
  rw [byteLength_replicate, hsize, Nat.mul_one] at hslashes
  rw [dotted, String.utf8ByteSize_append, hslashes, Nat.add_comm]
  rfl

theorem locate_dotted {n : Nat} (hn : n < maxPathBytes) (fs : FileSystem) :
    fs.locate .status (dotted n) = .ok fs.current := by
  have hc : checkText (dotted n).text = .ok () := by
    refine checkText_eq_ok_iff.mpr ⟨?_, ?_, ?_⟩
    · simp [dotted]
    · simp [dotted]
    · rw [utf8ByteSize_dotted]
      exact hn
  have hstart : startOf (dotted n).text fs.current = fs.current := by
    simp [startOf, dotted]
  refine locate_eq_ok_iff.mpr ⟨hc, ?_⟩
  rw [hstart]
  rcases lookupPieces_eq_or (dotted n) with hl | hl <;> rw [hl, words_dotted]
  · exact .skip (.inr rfl) .done
  · exact .skip (.inr rfl) (.skip (.inl rfl) .done)

-- What is in the way is not seen if the path to it is too long.
theorem make_past_limit :
    let fs := (FileSystem.root 0).put ["f"] (.file ⟨[0x78], 0o644, 0⟩)
    let root := dotted 4094
    fs.locate .status root = .ok [] ∧ fs.IsDirectory [] ∧ AllOrdinary ["f"] ∧
      (∃ node, fs.node? ["f"] = some node ∧ ¬ node.isDirectory) ∧
      make root (root.joined ["f"]) fs = .error .directoryFailed fs := by
  intro fs root
  have hb : fs.locate .status root = .ok [] := locate_dotted (by decide) fs
  have hd : fs.IsDirectory [] := by decide
  have hf : IsOrdinary "f" := ⟨by decide, by decide, by decide, by decide⟩
  have ho : AllOrdinary ([] ++ ["f"]) := List.forall_mem_singleton.mpr hf
  have hlong :
      ¬ (checkText (root.joined ([] ++ ["f"])).text = .ok () ∧ "f".utf8ByteSize ≤ 255) := by
    rintro ⟨hc, _⟩
    obtain ⟨t, ht, hcases⟩ := Path.text_join root hf.isPiece
    have hsize := utf8ByteSize_le_of_checkText hc
    have ht' : 1 ≤ t.utf8ByteSize := by rcases hcases with rfl | rfl <;> decide
    rw [Path.joined_concat, Path.joined_nil, ht, String.utf8ByteSize_append, utf8ByteSize_dotted,
      maxPathBytes] at hsize
    omega
  refine ⟨hb, hd, ho, ⟨_, rfl, by decide⟩, ?_⟩
  have hmake : make root (root.joined []) fs = .ok () fs := by
    rw [Path.joined_nil, make_of_alike rfl]
    rfl
  have hlevel : level (root.joined ([] ++ ["f"])) fs = _ := level_joined hb hd ho
  rw [if_neg hlong] at hlevel
  rw [← List.nil_append ["f"], make_joined_concat ho, bind_of_ok hmake, hlevel]

end Limit

end TarGuard.SecureDirectory
