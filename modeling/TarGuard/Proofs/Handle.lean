import TarGuard.Proofs.Levels
import TarGuard.Proofs.Moves
import TarGuard.Proofs.OutputFile

namespace TarGuard

open FileSystem

namespace Path

variable {p q : Path} {name : String}

theorem mem_of_mem_intersperse {α : Type} {a x : α} {xs : List α} (h : x ∈ xs.intersperse a) :
    x = a ∨ x ∈ xs := by
  fun_induction List.intersperse a xs with
  | case1 => cases h
  | case2 => exact .inr h
  | case3 y ys _ ih =>
    rcases List.mem_cons.mp h with rfl | h
    · exact .inr List.mem_cons_self
    · rcases List.mem_cons.mp h with rfl | h
      · exact .inl rfl
      · exact (ih h).imp_right (List.mem_cons_of_mem y)

theorem exists_mem_splitOn {a x : Char} {xs : List Char} (hx : x ∈ xs) (hne : x ≠ a) :
    ∃ l ∈ xs.splitOn a, x ∈ l := by
  have hm : x ∈ [a].intercalate (xs.splitOn a) := by rwa [List.intercalate_splitOn]
  obtain ⟨l, hl, hxl⟩ := List.mem_flatten.mp hm
  rcases mem_of_mem_intersperse hl with rfl | hl
  · exact absurd (List.mem_singleton.mp hxl) hne
  · exact ⟨l, hl, hxl⟩

theorem mem_text_iff {c : Char} (hc : c ≠ '/') :
    c ∈ p.text.toList ↔ ∃ s ∈ p.words, c ∈ s.toList := by
  constructor
  · intro hm
    obtain ⟨l, hl, hcl⟩ := exists_mem_splitOn hm hc
    refine ⟨String.ofList l, List.mem_filter.mpr ⟨List.mem_map_of_mem hl, ?_⟩, ?_⟩
    · have hne : l ≠ [] := List.ne_nil_of_mem hcl
      simpa using hne
    · rwa [String.toList_ofList]
  · rintro ⟨s, hs, hcs⟩
    obtain ⟨l, hl, rfl⟩ := List.mem_map.mp (List.mem_filter.mp hs).1
    rw [String.toList_ofList] at hcs
    exact mem_of_mem_splitOn hl hcs

theorem words_of_last (h : p.pieces.getLast? = some name) (hn : IsOrdinary name) :
    ∃ front, p.words = front ++ [name] := by
  obtain ⟨front, hp⟩ := List.getLast?_eq_some_iff.mp h
  refine ⟨front.filter (· ≠ ""), ?_⟩
  rw [words, hp, List.filter_append]
  simp [hn.ne_empty]

theorem endsPlainly_of_last (h : p.pieces.getLast? = some name) (hn : IsOrdinary name) :
    p.EndsPlainly := by
  intro s hs
  rw [h, Option.mem_some_iff] at hs
  rw [← hs, hn.not_isVoid]
  decide

section Parent

variable {front : List String} (hp : p.parent? = some q) (hw : p.words = front ++ [name])
  (hn : IsOrdinary name)

include hp hw hn

theorem components_eq_parent : p.components = q.components ++ [.name name] := by
  have hlast := getLast?_components_of_words hw hn.ofPiece?
  rcases p.parents_cases with hnil | ⟨q', c, hparents, hc⟩
  · rw [parent?, hnil] at hp
    cases hp
  · rw [parent?, hparents] at hp
    cases hp
    rw [hc, List.getLast?_concat, Option.some_inj] at hlast
    rw [hc, hlast]

theorem isAbsolute_iff_parent : p.IsAbsolute ↔ q.IsAbsolute := by
  rw [isAbsolute_iff, isAbsolute_iff, components_eq_parent hp hw hn]
  cases q.components <;> simp

theorem telling_front : telling front = telling q.words := by
  have hname : telling [name] = [name] := by simp [telling, hn.not_isVoid]
  have ht := p.telling_words_eq
  rw [components_eq_parent hp hw hn, List.filterMap_append, ← q.telling_words_eq, hw, telling_append,
    hname] at ht
  exact List.append_cancel_right ht

end Parent

end Path

namespace FileSystem

variable {fs fs' : FileSystem} {p : Path} {name : String} {base : Location} {purpose : Purpose}

-- A path names something in a directory: it ends with an ordinary name, and its parent leads to the
-- directory, maybe through links. A name alone is one in the working directory.
structure Names (fs : FileSystem) (p : Path) (name : String) (base : Location) : Prop where
  last        : p.pieces.getLast? = some name
  ordinary    : IsOrdinary name
  parent      : ∃ q, p.parent? = some q ∧
    (q = .empty ∧ base = fs.current ∨ fs.locate .status q = .ok base)
  isDirectory : fs.IsDirectory base

namespace Names

theorem grows {new : Location → Node → Prop} (h : fs.Names p name base) (g : Grows new fs fs') :
    fs'.Names p name base where
  last := h.last
  ordinary := h.ordinary
  parent := by
    obtain ⟨q, hq, hcases⟩ := h.parent
    refine ⟨q, hq, hcases.imp ?_ fun hl => locate_of_grows_directory hl h.isDirectory g⟩
    rintro ⟨he, hb⟩
    exact ⟨he, hb.trans g.current.symm⟩
  isDirectory := g.isDirectory h.isDirectory

variable (h : fs.Names p name base)

include h

theorem exists_front :
    ∃ front, p.words = front ++ [name] ∧
      Walks fs .status maxLinks (startOf p.text fs.current) front base ∧
      ∀ s ∈ front, '\x00' ∉ s.toList := by
  obtain ⟨front, hw⟩ := Path.words_of_last h.last h.ordinary
  obtain ⟨q, hq, hcases⟩ := h.parent
  have ht := Path.telling_front hq hw h.ordinary
  have ha := Path.isAbsolute_iff_parent hq hw h.ordinary
  have hvoid {s : String} (hv : Path.IsVoid s) : '\x00' ∉ s.toList := by
    rcases Path.isVoid_iff.mp hv with rfl | rfl
    all_goals decide
  refine ⟨front, hw, ?_⟩
  rcases hcases with ⟨rfl, rfl⟩ | hl
  · have hall := Path.telling_eq_nil_iff.mp ht
    have hstart : startOf p.text fs.current = fs.current := if_neg (mt ha.mp (by decide))
    rw [hstart]
    exact ⟨.void hall, fun s hs => hvoid (hall s hs)⟩
  · obtain ⟨hcheck, hwalk⟩ := locate_eq_ok_iff.mp hl
    have hstart : startOf p.text fs.current = startOf q.text fs.current := if_congr ha rfl rfl
    have hlookup : Path.telling (lookupPieces q.text) = Path.telling q.words := by
      rcases lookupPieces_eq_or q with hl | hl
      · rw [hl]
      · rw [hl, Path.telling_append]
        exact List.append_nil _
    refine ⟨hstart ▸ hwalk.of_telling h.isDirectory (ht.trans hlookup.symm), fun s hs hz => ?_⟩
    have hs' : s ∈ Path.telling front :=
      List.mem_filter.mpr ⟨hs, by simpa using fun hv => hvoid hv hz⟩
    rw [ht] at hs'
    exact not_mem_of_checkText hcheck
      ((Path.mem_text_iff (by decide)).mpr ⟨s, (List.mem_filter.mp hs').1, hz⟩)

theorem checkText_iff :
    checkText p.text = .ok () ↔ '\x00' ∉ name.toList ∧ p.text.utf8ByteSize ≤ maxPathBytes := by
  obtain ⟨front, hw, _, hz⟩ := h.exists_front
  have hnul : '\x00' ∉ p.text.toList ↔ '\x00' ∉ name.toList := by
    rw [not_iff_not, Path.mem_text_iff (by decide), hw]
    constructor
    · rintro ⟨s, hs, hc⟩
      rcases List.mem_append.mp hs with hs | hs
      · exact absurd hc (hz s hs)
      · exact List.mem_singleton.mp hs ▸ hc
    · exact fun hc => ⟨name, by simp, hc⟩
  have hne : p.text ≠ "" := by
    intro he
    have hlast := h.last
    rw [Path.pieces, he] at hlast
    exact h.ordinary.ne_empty (Option.some_inj.mp hlast).symm
  rw [checkText_eq_ok_iff, hnul, and_iff_right hne]

theorem exists_walk :
    ∃ m, ∀ purpose, fs.walk purpose maxLinks (startOf p.text fs.current) (lookupPieces p.text) =
      fs.walk purpose m base [name] := by
  obtain ⟨front, hw, hwalk, _⟩ := h.exists_front
  have hl := Path.lookupPieces_of_endsPlainly (Path.endsPlainly_of_last h.last h.ordinary)
  rw [hl, hw]
  refine hwalk.exists_walk_append h.isDirectory (List.cons_ne_nil _ _) fun he => ?_
  exact h.ordinary.ne_empty (List.singleton_inj.mp he)

theorem locate_eq (ht : checkText p.text = .ok ()) (hf : purpose.follows = false) :
    fs.locate purpose p =
      if name.utf8ByteSize ≤ 255 then .ok (name :: base) else .error .nameTooLong := by
  obtain ⟨m, hm⟩ := h.exists_walk
  have hn := h.ordinary
  rw [locate, ht]
  refine (hm purpose).trans ?_
  split
  case isTrue hl =>
    exact walk_last hn.ne_empty hn.ne_here hn.ne_up hl fun hp => by rw [hf] at hp; cases hp
  case isFalse hl => exact walk_of_long hn.ne_empty hn.ne_here hn.ne_up hl

end Names

structure Adds (loc : Location) (f : File) (fs fs' : FileSystem) : Prop where
  before : fs.node? loc = none
  file : fs'.node? loc = some (.file f)
  others : ∀ l, l ≠ loc → fs'.node? l = fs.node? l
  current : fs'.current = fs.current
  clock : fs'.clock = fs.clock

end FileSystem

namespace OutputFile

variable {fs fs' : FileSystem} {p : Path} {name : String} {base loc : Location}

theorem IsFree.adds_holding (h : IsFree fs loc) (content : List UInt8) :
    Adds loc ⟨content, mode, fs.clock⟩ fs (holding fs loc content) where
  before := h.node
  file := h.node?_holding content
  others _ hl := node?_put_of_ne hl
  current := current_put
  clock := clock_put

def writeAll (f : OutputFile) (pieces : List (Option Failure × List UInt8)) :
    EStateM ExtractError FileSystem Unit :=
  pieces.forM fun piece => f.write piece.1 piece.2

theorem IsFree.writeAll_ends (h : IsFree fs loc) (p : Path) (content : List UInt8)
    (pieces : List (Option Failure × List UInt8)) :
    Ends (writeAll ⟨p, loc⟩ pieces) (holding fs loc content)
      (fun _ fs' => fs' = holding fs loc (content ++ (pieces.map Prod.snd).flatten))
      (fun e fs' => (∃ piece ∈ pieces, ∃ failure, piece.1 = some failure ∧ e = failure.error) ∧
        ∃ part, part <+: (pieces.map Prod.snd).flatten ∧
          fs' = holding fs loc (content ++ part)) := by
  induction pieces generalizing content with
  | nil => exact Ends.pure (by simp)
  | cons piece pieces ih =>
    rw [writeAll, List.forM_eq_forM, List.forM_cons]
    refine (write_holding_ends piece.1 p h content piece.2).bind ?failed ?written
    case failed =>
      rintro e _ ⟨failure, hf, rfl, he⟩
      refine ⟨⟨piece, List.mem_cons_self, failure, hf, he⟩, _, ?_, rfl⟩
      exact (List.take_prefix _ _).trans (List.prefix_append _ _)
    case written =>
      rintro _ _ rfl
      refine (ih (content ++ piece.2)).imp ?_ ?_
      · rintro _ _ rfl
        simp
      · rintro e _ ⟨⟨q, hq, he⟩, part, hp, rfl⟩
        refine ⟨⟨q, List.mem_cons_of_mem _ hq, he⟩, piece.2 ++ part, ?_, by simp⟩
        simpa using hp

def IsShort (p : Path) (name : String) : Prop :=
  checkText p.text = .ok () ∧ name.utf8ByteSize ≤ 255

section Names

variable (h : fs.Names p name base)

include h

theorem isShort_iff :
    IsShort p name ↔ IsFileName name ∧ p.text.utf8ByteSize ≤ maxPathBytes := by
  have hn := h.ordinary
  rw [IsShort, h.checkText_iff]
  constructor
  · rintro ⟨⟨hz, hp⟩, hl⟩
    exact ⟨hn.isFileName hz hl, hp⟩
  · rintro ⟨⟨_, _, _, _, hz, hl⟩, hp⟩
    exact ⟨⟨hz, hp⟩, hl⟩

theorem isFree_of_isShort (hs : IsShort p name) (hnode : fs.node? (name :: base) = none) :
    IsFree fs (name :: base) where
  node := hnode
  accepts f := by
    obtain ⟨hf, _⟩ := (isShort_iff h).mp hs
    refine ⟨hf, h.isDirectory, fun hd => ?_⟩
    rw [IsDirectory, hnode] at hd
    cases hd

theorem locate_of_isShort (hs : IsShort p name) {purpose : Purpose}
    (hf : purpose.follows = false) : fs.locate purpose p = .ok (name :: base) := by
  rw [h.locate_eq hs.1 hf, if_pos hs.2]

theorem create_of_isShort (failure? : Option Failure) (hs : IsShort p name) :
    create failure? p fs =
      match fs.node? (name :: base) with
      | none =>
        match failure? with
        | some failure => .error failure.error fs
        | none => .ok ⟨p, name :: base⟩ (holding fs (name :: base) [])
      | some (.link _) => .error .linkDetected fs
      | some _ => .error .writeFailed fs := by
  rw [create_apply, createFile, linkStatus, locate_of_isShort h hs rfl, locate_of_isShort h hs rfl]
  cases hnode : fs.node? (name :: base) with
  | none =>
    simp only [bind, Except.bind, hnode]
    cases failure? <;> rfl
  | some node =>
    simp only [bind, Except.bind, hnode, existing]
    cases node <;> rfl

theorem create_of_not_isShort (failure? : Option Failure) (hs : ¬ IsShort p name) :
    create failure? p fs = .error .writeFailed fs := by
  have hl : ∃ e, fs.locate .createNew p = .error e ∧ e ≠ .alreadyExists ∧ e ≠ .tooManyLinks := by
    by_cases ht : checkText p.text = .ok ()
    case pos =>
      rw [h.locate_eq ht rfl, if_neg fun hl => hs ⟨ht, hl⟩]
      exact ⟨_, rfl, by decide, by decide⟩
    case neg =>
      obtain ⟨e, he, hne⟩ := exists_checkText_error ht
      refine ⟨e, ?_, hne⟩
      rw [locate, he]
      rfl
  obtain ⟨e, he, hexists, hlinks⟩ := hl
  rw [create_apply, createFile, he]
  cases e <;> first | rfl | exact absurd rfl hexists | exact absurd rfl hlinks

theorem discard_of_isShort (hs : IsShort p name) (hfree : IsFree fs (name :: base))
    (content : List UInt8) :
    discard ⟨p, name :: base⟩ (holding fs (name :: base) content) = fs := by
  have g : Grows (fun _ _ => True) fs (holding fs (name :: base) content) :=
    hfree.grows_holding trivial
  have hl : (holding fs (name :: base) content).locate .linkStatus p = .ok (name :: base) :=
    locate_of_isShort (h.grows g) hs rfl
  have hu : (holding fs (name :: base) content).unlink p =
      .ok ((holding fs (name :: base) content).remove (name :: base)) := by
    rw [unlink, hl]
    simp only [bind, Except.bind, hfree.node?_holding]
    rfl
  rw [discard, hu]
  exact hfree.remove_holding content

end Names

-- A file is made only where there is nothing, and if it cannot be made, nothing has changed. It
-- holds all that is written to it, one piece behind the other, or the first of it where the system
-- fails a write, and nothing else is there when it is kept. When it is taken away, all is as it was.
theorem create_write_discard (h : fs.Names p name base) (failure? : Option Failure) :
    Ends (create failure? p) fs
      (fun f fs' => ∀ pieces : List (Option Failure × List UInt8),
        Ends (f.writeAll pieces) fs'
          (fun _ written =>
            Adds (name :: base) ⟨(pieces.map Prod.snd).flatten, 0o600, fs.clock⟩ fs written ∧
            f.discard written = fs)
          (fun e written =>
            (∃ piece ∈ pieces, ∃ failure, piece.1 = some failure ∧ e = failure.error) ∧
            (∃ part, part <+: (pieces.map Prod.snd).flatten ∧
              Adds (name :: base) ⟨part, 0o600, fs.clock⟩ fs written) ∧
            f.discard written = fs))
      (fun e fs' => fs' = fs ∧
        (e = .linkDetected ∨ e = .writeFailed ∨
          ∃ failure, failure? = some failure ∧ e = failure.error) ∧
        (e = .linkDetected ↔ (∃ t, fs.node? (name :: base) = some (.link t)) ∧
          p.text.utf8ByteSize ≤ maxPathBytes)) ∧
    ((∃ f fs', create failure? p fs = .ok f fs') ↔ failure? = none ∧
      fs.node? (name :: base) = none ∧ IsFileName name ∧
      p.text.utf8ByteSize ≤ maxPathBytes) := by
  have hmade {e : ExtractError} (he : create failure? p fs = .error e fs) :
      ¬ ∃ f fs', create failure? p fs = .ok f fs' := by
    rintro ⟨_, _, hcreate⟩
    cases he.symm.trans hcreate
  by_cases hs : IsShort p name
  case neg =>
    have hc := create_of_not_isShort h failure? hs
    refine ⟨Ends.of_eq_error hc ⟨rfl, .inr (.inl rfl), ?link⟩, ?made⟩
    case link =>
      refine iff_of_false (by decide) ?_
      rintro ⟨⟨t, ht⟩, hp⟩
      exact hs ((isShort_iff h).mpr ⟨isFileName_of_node?_cons ht, hp⟩)
    case made =>
      exact iff_of_false (hmade hc) fun hf => hs ((isShort_iff h).mpr hf.2.2)
  case pos =>
    have hc := create_of_isShort h failure? hs
    obtain ⟨hname, hp⟩ := (isShort_iff h).mp hs
    cases hnode : fs.node? (name :: base) with
    | none =>
      rw [hnode] at hc
      cases failure? with
      | some failure =>
        refine ⟨Ends.of_eq_error hc ⟨rfl, .inr (.inr ⟨failure, rfl, rfl⟩), ?_⟩, ?_⟩
        · refine iff_of_false (fun he => ?_) fun ⟨⟨_, ht⟩, _⟩ => nomatch ht
          rcases failure.error_eq with hf | hf <;> cases he.symm.trans hf
        · exact iff_of_false (hmade hc) fun hf => nomatch hf.1
      | none =>
        have hfree := isFree_of_isShort h hs hnode
        refine ⟨Ends.of_eq hc fun pieces => ?_, iff_of_true ⟨_, _, hc⟩ ⟨rfl, rfl, hname, hp⟩⟩
        -- From the empty file on, each piece goes behind those before it.
        refine (hfree.writeAll_ends p [] pieces).imp ?_ ?_
        · rintro _ _ rfl
          exact ⟨hfree.adds_holding _, discard_of_isShort h hs hfree _⟩
        · rintro e _ ⟨hfailure, part, hpart, rfl⟩
          exact ⟨hfailure, ⟨part, hpart, hfree.adds_holding part⟩,
            discard_of_isShort h hs hfree _⟩
    | some node =>
      rw [hnode] at hc
      cases node with
      | link t =>
        refine ⟨Ends.of_eq_error hc ⟨rfl, .inl rfl, iff_of_true rfl ⟨⟨t, rfl⟩, hp⟩⟩, ?_⟩
        exact iff_of_false (hmade hc) fun hf => nomatch hf.2.1
      | file | directory =>
        refine ⟨Ends.of_eq_error hc ⟨rfl, .inr (.inl rfl), iff_of_false (by decide) ?_⟩, ?_⟩
        · rintro ⟨⟨_, ht⟩, _⟩
          cases ht
        · exact iff_of_false (hmade hc) fun hf => nomatch hf.2.1

theorem create_write_discard_linked :
    let fs := ((FileSystem.root 0).put ["d"] (.directory 0o755)).put ["l"] (.link "d")
    fs.Names ⟨"l/f"⟩ "f" ["d"] ∧
      ∃ f fs' written full, create none ⟨"l/f"⟩ fs = .ok f fs' ∧
        f.writeAll [(none, [0x68]), (none, [0x69])] fs' = .ok () written ∧
        Adds ["f", "d"] ⟨[0x68, 0x69], 0o600, 0⟩ fs written ∧ f.discard written = fs ∧
        f.writeAll [(none, [0x68]), (some ⟨true, 1⟩, [0x69, 0x6a])] fs' = .error .diskFull full ∧
        f.discard full = fs := by
  intro fs
  have h : fs.Names ⟨"l/f"⟩ "f" ["d"] := {
    last := by decide
    ordinary := ⟨by decide, by decide, by decide, by decide⟩
    parent := ⟨⟨"l"⟩, by decide, .inr (by decide)⟩
    isDirectory := by decide
  }
  obtain ⟨hends, hiff⟩ := create_write_discard h none
  obtain ⟨f, fs', hc⟩ := hiff.mpr ⟨rfl, by decide, by decide, by decide⟩
  have hpieces := hends.of_ok hc
  obtain ⟨hadds, hdiscard⟩ := (hpieces [(none, [0x68]), (none, [0x69])]).of_ok rfl
  obtain ⟨-, -, hfull⟩ := (hpieces [(none, [0x68]), (some ⟨true, 1⟩, [0x69, 0x6a])]).of_error rfl
  exact ⟨h, f, fs', _, _, hc, rfl, hadds, hdiscard, rfl, hfull⟩

section Limit

open SecureDirectory

theorem pieces_dotted (n : Nat) : (dotted n).pieces = "." :: List.replicate n "" := by
  induction n with
  | zero => rfl
  | succ n ih =>
    have hp := Path.pieces_append (dotted n).text ""
    rw [← text_dotted_succ] at hp
    refine hp.trans ?_
    rw [show Path.pieces ⟨(dotted n).text⟩ = _ from ih, List.replicate_succ']
    rfl

theorem parent?_join_dotted {n : Nat} (hn : IsOrdinary name) :
    ((dotted n).join ⟨name⟩).parent? = some ⟨"."⟩ := by
  have hsplit : (dotted n).split = (.here, List.replicate n "") := by
    rw [Path.split_eq_divide, pieces_dotted, Path.divide, if_neg (by decide), if_pos rfl]
  have hvoid : ∀ s ∈ (List.replicate n "").reverse, Path.IsVoid s := by
    intro s hs
    rw [List.eq_of_mem_replicate (List.mem_reverse.mp hs)]
    rfl
  have hparents := Path.parents_join (p := dotted n) (c := .name name) (.inr ⟨name, hn, rfl⟩)
  rw [Component.text] at hparents
  rw [Path.parent?, hparents, Path.prefixes, hsplit,
    ← List.append_nil (List.replicate n "").reverse, Path.prefixesOf_append _ hvoid]
  rfl

theorem getLast?_pieces_join (p : Path) (hn : IsOrdinary name) :
    (p.join ⟨name⟩).pieces.getLast? = some name := by
  rcases Path.pieces_join (p := p) hn.isPiece with ⟨_, hp⟩ | ⟨_, _, _, _, _, _, hp⟩
  · rw [hp, List.getLast?_singleton]
  · rw [hp, List.getLast?_concat]

theorem lt_utf8ByteSize_join_dotted (n : Nat) (hn : IsOrdinary name) :
    n + 1 < ((dotted n).join ⟨name⟩).text.utf8ByteSize := by
  obtain ⟨t, ht, hcases⟩ := Path.text_join (dotted n) hn.isPiece
  have hne : t ≠ "" := by
    rcases hcases with rfl | rfl
    · exact hn.ne_empty
    · simp
  have hpos := mt String.utf8ByteSize_eq_zero_iff.mp hne
  rw [ht, String.utf8ByteSize_append, utf8ByteSize_dotted]
  omega

-- A link is not told apart from other things if the path to it is too long.
theorem create_past_limit :
    let fs := (FileSystem.root 0).put ["l"] (.link "x")
    let p := (dotted 4094).join ⟨"l"⟩
    fs.Names p "l" [] ∧ fs.node? ["l"] = some (.link "x") ∧
      create none p fs = .error .writeFailed fs := by
  intro fs p
  have hl : IsOrdinary "l" := ⟨by decide, by decide, by decide, by decide⟩
  have h : fs.Names p "l" [] := {
    last := getLast?_pieces_join _ hl
    ordinary := hl
    parent := ⟨⟨"."⟩, parent?_join_dotted hl, .inr (by decide)⟩
    isDirectory := by decide
  }
  refine ⟨h, by decide, create_of_not_isShort h none fun hs => ?_⟩
  have hsize := utf8ByteSize_le_of_checkText hs.1
  exact absurd (lt_utf8ByteSize_join_dotted 4094 hl) (Nat.not_lt.mpr hsize)

end Limit

end OutputFile

end TarGuard
