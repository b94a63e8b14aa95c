import TarGuard.Proofs.Decoded
import TarGuard.Proofs.Program

namespace TarGuard

open Blank FieldText

def lines (s : String) : List String :=
  (s.toList.splitOn '\n').map String.ofList

section Lines

variable {s t : String} {ls : List String}

theorem not_newline_mem (h : ∀ c ∈ s.toList, IsPlain c) : '\n' ∉ s.toList :=
  fun hm => absurd (h _ hm) (by decide)

theorem lines_of_not_mem (h : '\n' ∉ s.toList) : lines s = [s] := by
  rw [lines, List.splitOn_eq_singleton h, List.map_singleton, String.ofList_toList]

theorem lines_append (h : '\n' ∉ s.toList) (t : String) : lines (s ++ ("\n" ++ t)) = s :: lines t := by
  have hl : (s ++ ("\n" ++ t)).toList = s.toList ++ '\n' :: t.toList := by simp
  rw [lines, hl, List.splitOn_append_cons_self_of_not_mem h, List.map_cons, String.ofList_toList]
  rfl

theorem lines_join (h : ∀ l ∈ ls, '\n' ∉ l.toList) (t : String) :
    lines (String.join (ls.map (· ++ "\n")) ++ t) = ls ++ lines t := by
  induction ls with
  | nil => rw [List.map_nil, String.join_nil, String.empty_append, List.nil_append]
  | cons l ls ih =>
    obtain ⟨hl, hls⟩ := List.forall_mem_cons.mp h
    rw [List.map_cons, String.join_cons, String.append_assoc, String.append_assoc,
      lines_append hl, ih hls, List.cons_append]

end Lines

section Plain

variable {s t : String}

theorem isPlain_append (hs : ∀ c ∈ s.toList, IsPlain c) (ht : ∀ c ∈ t.toList, IsPlain c) :
    ∀ c ∈ (s ++ t).toList, IsPlain c := by
  rw [String.toList_append, List.forall_mem_append]
  exact ⟨hs, ht⟩

theorem isDigit_toString (n : Nat) : ∀ c ∈ (toString n).toList, c.isDigit := by
  intro c hc
  rw [Nat.toString_eq_repr, Nat.toList_repr] at hc
  exact Nat.isDigit_of_mem_toDigits (by decide) (Nat.le_refl 10) hc

theorem le_of_isDigit {c : Char} (h : c.isDigit) : '0' ≤ c ∧ c ≤ '9' := by
  simpa [Char.isDigit, Char.le_def] using h

theorem isPlain_toString (n : Nat) : ∀ c ∈ (toString n).toList, IsPlain c := by
  intro c hc
  obtain ⟨hl, hh⟩ := le_of_isDigit (isDigit_toString n c hc)
  exact .inr ⟨Char.le_trans (by decide) hl, Char.le_trans hh (by decide)⟩

theorem isPlain_alignRight (width : Nat) (hs : ∀ c ∈ s.toList, IsPlain c) :
    ∀ c ∈ (CommandLine.alignRight width s).toList, IsPlain c := by
  refine isPlain_append ?_ hs
  intro c hc
  rw [String.toList_ofList] at hc
  rw [List.eq_of_mem_replicate hc]
  decide

theorem isPlain_kindLabel (k : EntryKind) : ∀ c ∈ (CommandLine.kindLabel k).toList, IsPlain c := by
  cases k
  all_goals
    rw [CommandLine.kindLabel]
    exact isPlain_of_all (by decide)

end Plain

namespace CommandLine

variable {limits : Limits} {interrupted : Bool} {fs : FileSystem} {archive : Path} {h h' : Header}

def heading (archive : Path) : String :=
  "Files in " ++ archive.text ++ ":\n" ++ row "Size" "Type" "Name" ++ rule

def headerLine (h : Header) : String :=
  alignRight 10 (toString h.size.toNat) ++ "  " ++ alignRight 4 (kindLabel h.kind) ++ "  " ++
    h.fullPath

def totalLine (count : Nat) : String :=
  "Total: " ++ toString count ++ " entries"

theorem listingText_eq (archive : Path) (hs : List Header) :
    listingText archive hs = heading archive ++
      (String.join ((hs.map headerLine).map (· ++ "\n")) ++
        ("" ++ ("\n" ++ (totalLine hs.length ++ ("\n" ++ ""))))) := by
  have hrows : hs.map headerRow = (hs.map headerLine).map (· ++ "\n") := by
    rw [List.map_map]
    rfl
  have htext : listingText archive hs = heading archive ++ String.join (hs.map headerRow) ++
      ("\n" ++ "Total: ") ++ toString hs.length ++ (" entries" ++ "\n") := rfl
  rw [htext, hrows, totalLine]
  simp only [String.append_assoc, String.empty_append, String.append_empty]

theorem isPlain_headerLine (hp : ∀ c ∈ h.fullPath.toList, IsPlain c) :
    ∀ c ∈ (headerLine h).toList, IsPlain c := by
  have hgap : ∀ c ∈ ("  " : String).toList, IsPlain c := isPlain_of_all (by decide)
  have hsize := isPlain_alignRight 10 (isPlain_toString h.size.toNat)
  have hkind := isPlain_alignRight 4 (isPlain_kindLabel h.kind)
  exact isPlain_append (isPlain_append (isPlain_append (isPlain_append hsize hgap) hkind) hgap) hp

theorem isPlain_fullPath_of_decode {b : Block} {bound : UInt64}
    (hd : Header.decode b bound = .ok h) : ∀ c ∈ h.fullPath.toList, IsPlain c :=
  have hf := Header.decodedFrom_of_decode hd
  Header.isPlain_fullPath (isPlain_of_read? hf.name) (isPlain_of_read? hf.leading)

section Columns

variable {k k' : Nat} {ds ds' rest rest' : List Char}

theorem dropWhile_isBlank (hd : ∀ c ∈ ds, c.isDigit) (hne : ds ≠ []) :
    (List.replicate k ' ' ++ (ds ++ rest)).dropWhile isBlank = ds ++ rest := by
  refine dropWhile_append ?_ (fun c hc => not_isBlank_of_digit (le_of_isDigit (hd c hc))) hne
  intro c hc
  rw [List.eq_of_mem_replicate hc]
  decide

theorem takeWhile_isDigit (hd : ∀ c ∈ ds, c.isDigit) :
    (ds ++ ' ' :: rest).takeWhile Char.isDigit = ds := by
  have hspace : ¬ Char.isDigit ' ' := by decide
  rw [List.takeWhile_append_of_pos hd, List.takeWhile_cons_of_neg hspace, List.append_nil]

theorem column_unique (hd : ∀ c ∈ ds, c.isDigit) (hne : ds ≠ []) (hd' : ∀ c ∈ ds', c.isDigit)
    (hne' : ds' ≠ [])
    (he : List.replicate k ' ' ++ (ds ++ ' ' :: rest) =
      List.replicate k' ' ' ++ (ds' ++ ' ' :: rest')) : ds = ds' ∧ rest = rest' := by
  have hline := congrArg (List.dropWhile isBlank) he
  rw [dropWhile_isBlank hd hne, dropWhile_isBlank hd' hne'] at hline
  have hdigits := congrArg (List.takeWhile Char.isDigit) hline
  rw [takeWhile_isDigit hd, takeWhile_isDigit hd'] at hdigits
  subst hdigits
  exact ⟨rfl, List.tail_eq_of_cons_eq (List.append_cancel_left hline)⟩

end Columns

theorem toString_injective {m n : Nat} (h : (toString m).toList = (toString n).toList) : m = n := by
  rw [Nat.toString_eq_repr, Nat.toString_eq_repr, Nat.toList_repr, Nat.toList_repr] at h
  have := congrArg (Nat.ofDigitChars 10 · 0) h
  simpa only [Nat.ofDigitChars_toDigits (by decide : 1 < 10) (Nat.le_refl 10)] using this

theorem length_alignRight_kindLabel (k : EntryKind) :
    (alignRight 4 (kindLabel k)).toList.length = 4 := by
  cases k <;> simp only [kindLabel] <;> decide

theorem dropWhile_alignRight_kindLabel (k : EntryKind) :
    (alignRight 4 (kindLabel k)).toList.dropWhile isBlank = (kindLabel k).toList := by
  cases k <;> simp only [kindLabel] <;> decide

theorem toList_headerLine (h : Header) :
    (headerLine h).toList =
      List.replicate (10 - (toString h.size.toNat).length) ' ' ++ ((toString h.size.toNat).toList ++
        ' ' :: ' ' :: ((alignRight 4 (kindLabel h.kind)).toList ++ ' ' :: ' ' ::
          h.fullPath.toList)) := by
  simp [headerLine, alignRight]

theorem headerLine_inj (he : headerLine h = headerLine h') :
    h.size = h'.size ∧ kindLabel h.kind = kindLabel h'.kind ∧ h.fullPath = h'.fullPath := by
  have hne (n : Nat) : (toString n).toList ≠ [] := by
    rw [Nat.toString_eq_repr, Nat.toList_repr]
    exact Nat.toDigits_ne_nil
  have hline := congrArg String.toList he
  rw [toList_headerLine, toList_headerLine] at hline
  obtain ⟨hsize, hrest⟩ := column_unique (isDigit_toString _) (hne _) (isDigit_toString _) (hne _) hline
  obtain ⟨hkind, hpath⟩ := List.append_inj (List.tail_eq_of_cons_eq hrest)
    ((length_alignRight_kindLabel _).trans (length_alignRight_kindLabel _).symm)
  have hlabel := congrArg (List.dropWhile isBlank) hkind
  rw [dropWhile_alignRight_kindLabel, dropWhile_alignRight_kindLabel, String.toList_inj] at hlabel
  refine ⟨UInt64.toNat_inj.mp (toString_injective hsize), hlabel, ?_⟩
  exact String.toList_inj.mp (List.tail_eq_of_cons_eq (List.tail_eq_of_cons_eq hpath))

theorem isPlain_fullPath_of_holds {bound : UInt64} {ending : Ending} {bytes : List UInt8}
    {es : List Entry} (hh : Archive.Holds bound ending bytes es) :
    ∀ e ∈ es, ∀ c ∈ e.header.fullPath.toList, IsPlain c := by
  induction hh with
  | ended | mark => exact List.forall_mem_nil _
  | entry _ hd _ _ _ ih => exact List.forall_mem_cons.mpr ⟨isPlain_fullPath_of_decode hd, ih⟩

theorem isPlain_totalLine (count : Nat) : ∀ c ∈ (totalLine count).toList, IsPlain c :=
  isPlain_append (isPlain_append (isPlain_of_all (by decide)) (isPlain_toString count))
    (isPlain_of_all (by decide))

theorem lines_listing {hs : List Header} (hp : ∀ h ∈ hs, ∀ c ∈ h.fullPath.toList, IsPlain c) :
    lines (String.join ((hs.map headerLine).map (· ++ "\n")) ++
        ("" ++ ("\n" ++ (totalLine hs.length ++ ("\n" ++ ""))))) =
      hs.map headerLine ++ ["", totalLine hs.length, ""] := by
  have hrows : ∀ l ∈ hs.map headerLine, '\n' ∉ l.toList := by
    rw [List.forall_mem_map]
    exact fun h hm => not_newline_mem (isPlain_headerLine (hp h hm))
  have hblank : '\n' ∉ ("" : String).toList := List.not_mem_nil
  rw [lines_join hrows, lines_append hblank, lines_append (not_newline_mem (isPlain_totalLine _)),
    lines_of_not_mem hblank]

theorem printable_of_isPlain {s : String} (hs : ∀ c ∈ s.toList, IsPlain c) :
    ∀ b ∈ Utf8.encode s, b = 9 ∨ 0x20 ≤ b ∧ b ≤ 0x7e := by
  rw [encode_of_isPlain hs, List.forall_mem_map]
  intro c hc
  simpa [isPrintable] using isPrintable_byte (hs c hc)

theorem run_list_of_exitCode
    (he : ((Command.list archive).run limits interrupted fs).exitCode interrupted = 0) :
    ∃ hs, Listing.ofFile fs archive limits = .ok hs ∧
      ((Command.list archive).run limits interrupted fs).output = listingText archive hs := by
  have hf := Outcome.failure_of_exitCode he
  rw [Command.run] at hf ⊢
  cases hl : Listing.ofFile fs archive limits with
  | error e =>
    rw [hl] at hf
    cases hf
  | ok hs => exact ⟨hs, rfl, rfl⟩

-- A listing that succeeds has one line for each record, in the order of the archive, and behind
-- them a blank line and the total. All that stands in the line of a record can be printed, and its
-- size, kind and path can be told from it.
theorem list_shows_records (limits : Limits) (interrupted : Bool) (fs : FileSystem) (archive : Path)
    (he : ((Command.list archive).run limits interrupted fs).exitCode interrupted = 0) :
    ∃ input es body, Input.openFile fs archive = .ok input ∧
      Archive.Holds limits.componentLength input.ending input.remaining es ∧
      ((Command.list archive).run limits interrupted fs).output = heading archive ++ body ∧
      lines body = es.map (headerLine ·.header) ++ ["", totalLine es.length, ""] ∧
      ∀ e ∈ es,
        (∀ b ∈ Utf8.encode (headerLine e.header), b = 9 ∨ 0x20 ≤ b ∧ b ≤ 0x7e) ∧
        ∀ h, headerLine h = headerLine e.header →
          h.size = e.header.size ∧ kindLabel h.kind = kindLabel e.header.kind ∧
            h.fullPath = e.header.fullPath := by
  obtain ⟨hs, hl, hout⟩ := run_list_of_exitCode he
  cases ho : Input.openFile fs archive with
  | error e =>
    rw [Listing.ofFile, ho] at hl
    cases hl
  | ok input =>
    rw [Listing.ofFile, ho] at hl
    obtain ⟨es, hh, rfl⟩ := Listing.holds_of_headers (Input.joints_of_openFile ho) hl
    have hp := isPlain_fullPath_of_holds hh
    refine ⟨input, es, _, rfl, hh, hout.trans (listingText_eq archive _), ?_, ?_⟩
    · rw [lines_listing (List.forall_mem_map.mpr hp), List.map_map, List.length_map]
      rfl
    · intro e hm
      exact ⟨printable_of_isPlain (isPlain_headerLine (hp e hm)), fun _ => headerLine_inj⟩

theorem list_shows_records_docs :
    ∃ body,
      ((Command.list (FileSystem.pathTo ["a.tar"])).run {} false
        (FileSystem.tar [Entry.docs, Entry.nested])).output =
          heading (FileSystem.pathTo ["a.tar"]) ++ body ∧
      lines body = [headerLine Entry.docs.written.header, headerLine Entry.nested.written.header, "",
        "Total: 2 entries", ""] := by
  have hs := Entry.storable_docs_nested
  obtain ⟨_, hl⟩ := Listing.ofFile_tar (l := {}) hs (by decide) (by decide)
  have he : ((Command.list (FileSystem.pathTo ["a.tar"])).run {} false
      (FileSystem.tar [Entry.docs, Entry.nested])).exitCode false = 0 := by
    rw [Command.run, hl]
    rfl
  obtain ⟨_, es, body, ho, hh, hout, hlines, _⟩ := list_shows_records {} false _ _ he
  cases ho.symm.trans (Input.openFile_tar hs)
  cases hh.entries?.symm.trans Archive.entries?_docs_nested
  refine ⟨body, hout, hlines.trans ?_⟩
  have htotal : totalLine 2 = "Total: 2 entries" := by decide
  rw [← htotal]
  rfl

end CommandLine
end TarGuard
