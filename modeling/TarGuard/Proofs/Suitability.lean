import TarGuard.Proofs.Admission
import TarGuard.Proofs.Contents
import TarGuard.Proofs.PathSize
import TarGuard.Proofs.Success

namespace TarGuard

open FileSystem SecureDirectory EntryPath Extractor

-- The headers of entries that can be extracted below a directory, in whatever order they come.
structure Limits.Suits (l : Limits) (fs : FileSystem) (names : List String) (base : Location)
    (hs : List Header) : Prop where
  files     : ∀ n < hs.length, UInt64.ofNat (n + 1) ≤ l.files
  fileSize  : ∀ h ∈ hs, h.size ≤ l.fileSize
  totalSize : (hs.map (·.size.toNat)).sum ≤ l.totalSize.toNat
  accepted  : ∀ h ∈ hs, ∃ names, components l h.fullPath = .ok names
  place     : ∀ h ∈ hs, HasPlace fs names base h
  apart     : hs.Pairwise fun h h' => ¬ h.Blocks h' ∧ ¬ h'.Blocks h

namespace Limits.Suits

variable {l : Limits} {fs : FileSystem} {names : List String} {base : Location}
  {hs hs' : List Header}

theorem perm (h : l.Suits fs names base hs) (hp : hs.Perm hs') : l.Suits fs names base hs' where
  files := hp.length_eq ▸ h.files
  fileSize a ha := h.fileSize a (hp.mem_iff.mpr ha)
  totalSize := (hp.map fun a => a.size.toNat).sum_nat ▸ h.totalSize
  accepted a ha := h.accepted a (hp.mem_iff.mpr ha)
  place a ha := h.place a (hp.mem_iff.mpr ha)
  apart := (hp.pairwise_iff fun ha => ⟨ha.2, ha.1⟩).mp h.apart

theorem of_append (h : l.Suits fs names base (hs ++ hs')) : l.Suits fs names base hs where
  files n hn := h.files n (by simp; omega)
  fileSize a ha := h.fileSize a (List.mem_append_left hs' ha)
  totalSize := by
    have := h.totalSize
    simp only [List.map_append, List.sum_append] at this
    omega
  accepted a ha := h.accepted a (List.mem_append_left hs' ha)
  place a ha := h.place a (List.mem_append_left hs' ha)
  apart := (List.pairwise_append.mp h.apart).1

theorem admits (h : l.Suits fs names base hs) (hf : l.files.toNat + 1 < UInt64.size) :
    l.Admits hs where
  files := by
    by_contra hn
    have hle := UInt64.le_iff_toNat_le.mp (h.files l.files.toNat (by omega))
    rw [UInt64.toNat_ofNat', Nat.mod_eq_of_lt hf] at hle
    omega
  fileSize := h.fileSize
  totalSize := h.totalSize
  accepted := h.accepted
  no_link a ha := by
    cases h.place a ha with
    | directory hk | regular hk | other hk => simp [hk]
  apart := h.apart

end Limits.Suits

theorem Entry.Provides.place {e : Entry} {base q : Location} {clock : Int} {node : Node}
    (h : e.Provides base clock (q ++ base) node) :
    (e.header.kind = .directory ∨ e.header.kind = .regular) ∧ q <:+ e.header.trail ∧
      (node.isDirectory ∨ e.header.kind = .regular ∧ q = e.header.trail) := by
  generalize hl : q ++ base = l at h
  cases h with
  | above hk ht =>
    obtain ⟨rfl, q', -, hs, rfl⟩ := ht
    cases List.append_cancel_right hl
    exact ⟨hk, hs.trans (List.tail_suffix _), .inl rfl⟩
  | directory hk =>
    cases List.append_cancel_right hl
    exact ⟨.inl hk, List.suffix_rfl, .inl rfl⟩
  | file hk =>
    cases List.append_cancel_right hl
    exact ⟨.inr hk, List.suffix_rfl, .inr ⟨hk, rfl⟩⟩

theorem Input.Supplies.readRecord_none {s : Input} {bytes : List UInt8} {ending : Ending}
    {bound : UInt64} (h : s.Supplies bytes ending) (hh : Archive.Holds bound ending bytes []) :
    ∃ t, Input.readRecord s = .ok none t := by
  cases hh with
  | ended he => exact readRecord_nil (he ▸ h)
  | mark hz => exact h.readRecord_zero hz

namespace Extractor

variable {x : Extractor} {s t : Session} {base : Location} {names : List String} {h : Header}
  {e : Entry} {es done : List Entry} {bytes front rest : List UInt8} {ending : Ending}

namespace Completed

theorem seen_eq (hc : x.Completed names base es s t) : t.seen = s.seen + .ofNat es.length := by
  induction hc with
  | nil => simp
  | @cons _ _ _ _ es hc _ ih =>
    rw [ih, hc.seen, List.length_cons, UInt64.ofNat_add, UInt64.add_assoc, UInt64.add_comm 1]
    rfl

theorem seen_le (hc : x.Completed names base es s t) {n : Nat} (hn : n < es.length) :
    s.seen + .ofNat (n + 1) ≤ x.limits.files := by
  induction hc generalizing n with
  | nil => cases hn
  | cons hc _ ih =>
    cases n with
    | zero => exact hc.allows.files
    | succ n =>
      have hle := ih (Nat.lt_of_succ_lt_succ hn)
      rw [hc.seen, UInt64.add_assoc, UInt64.add_comm 1] at hle
      rw [UInt64.ofNat_add (n + 1)]
      exact hle

theorem isClear_of_mem (hc : x.Completed names base es s t) (he : e ∈ es)
    (hk : e.header.kind = .directory ∨ e.header.kind = .regular) :
    IsClear s.files names base e.header.trail := by
  intro name above hs
  have ha := accepted_of_resolve (hc.resolved he)
  have ⟨htext, _⟩ := locate_eq_ok_iff.mp (hc.located he hk)
  have hpath : name :: above ++ names <:+ e.header.trail ++ names :=
    List.suffix_append_self_iff.mpr hs
  have hplace : name :: above ++ base <:+ e.header.trail ++ base :=
    List.suffix_append_self_iff.mpr hs
  have ⟨_, hentry⟩ := hc.node? he hk
  -- On the way to an entry there are directories, and the entry is one or was not there before.
  have hdirectory {node : Node} (hn : s.files.node? (name :: (above ++ base)) = some node) :
      t.files.IsDirectory (name :: (above ++ base)) := by
    by_cases heq : name :: above = e.header.trail
    case neg =>
      exact isDirectory_of_suffix hentry hplace fun he => heq (List.append_cancel_right he)
    case pos =>
      rw [← List.cons_append, heq] at hn ⊢
      cases hk with
      | inl hk => exact hc.directory he hk
      | inr hk => cases (hc.fresh he hk).symm.trans hn
  have ⟨_, hthere⟩ := Option.ne_none_iff_exists'.mp fun hn =>
    nomatch (node?_of_suffix hn hplace).symm.trans hentry
  have hname : IsFileName name := isFileName_of_node?_cons hthere
  refine ⟨⟨?_, hname.2.2.2.2.2⟩, ?_⟩
  · exact Nat.le_trans (utf8ByteSize_pathTo_le_of_suffix hpath) (utf8ByteSize_le_of_checkText htext)
  · cases hn : s.files.node? (name :: (above ++ base)) with
    | none => exact .inl rfl
    | some node =>
      have hd := hdirectory hn
      rw [IsDirectory, hc.grows.kept hn, ← hn] at hd
      exact .inr hd

theorem hasPlace_of_mem (hc : x.Completed names base es s t) (he : e ∈ es) :
    HasPlace s.files names base e.header := by
  have hlink := hc.no_link he
  cases hk : e.header.kind with
  | directory => exact .directory hk (hc.isClear_of_mem he (.inl hk))
  | regular => exact .regular hk (hc.isClear_of_mem he (.inr hk)) (hc.fresh he hk)
  | hardLink => exact absurd hk hlink.1
  | symbolicLink => exact absurd hk hlink.2
  | other => exact .other hk

theorem suits (hc : x.Completed names base es s t) (hn : s.seen = 0) (hs : s.summary = {}) :
    x.limits.Suits s.files names base (es.map (·.header)) where
  files n hlt := by
    rw [List.length_map] at hlt
    have hle := hc.seen_le hlt
    rwa [hn, UInt64.zero_add] at hle
  fileSize := List.forall_mem_map.mpr fun _ => hc.fileSize
  totalSize := by
    have ⟨hle, heq⟩ := hc.bytes_of_start hs
    rw [List.map_map]
    exact heq ▸ UInt64.le_iff_toNat_le.mp hle
  accepted := by
    rw [List.forall_mem_map]
    exact fun e he => ⟨_, (eq_foldl_of_resolve (hc.resolved he)).1⟩
  place := List.forall_mem_map.mpr fun _ => hc.hasPlace_of_mem
  apart := hc.apart

theorem hasPlace (hc : x.Completed names base done s t) (hplace : HasPlace s.files names base h)
    (hb : ∀ e ∈ done, ¬ e.header.Blocks h ∧ ¬ h.Blocks e.header) :
    HasPlace t.files names base h := by
  have hclear (hk : h.kind = .directory ∨ h.kind = .regular)
      (hclear : IsClear s.files names base h.trail) : IsClear t.files names base h.trail := by
    intro name above hs
    have ⟨hfit, hn⟩ := hclear name above hs
    refine ⟨hfit, ?_⟩
    cases hn with
    | inr hd => exact .inr (hc.grows.isDirectory hd)
    | inl hn =>
      cases hn' : t.files.node? (name :: (above ++ base)) with
      | none => exact .inl rfl
      | some node =>
        have ⟨e, he, hw⟩ := hc.grows.added hn hn'
        rw [← List.cons_append] at hw
        -- What an entry has put on the way is a directory, or a file that blocks the way.
        obtain ⟨-, -, hd | ⟨hfile, heq⟩⟩ := hw.place
        · exact .inr (by simpa [IsDirectory, hn'] using hd)
        · exact absurd (.of_trail hfile hk (heq ▸ hs)) (hb e he).1
  cases hplace with
  | directory hk hc => exact .directory hk (hclear (.inl hk) hc)
  | other hk => exact .other hk
  | regular hk hc' hn =>
    refine .regular hk (hclear (.inr hk) hc') ?_
    cases hn' : t.files.node? (h.trail ++ base) with
    | none => rfl
    | some node =>
      have ⟨e, he, hw⟩ := hc.grows.added hn hn'
      have ⟨hk', hs, _⟩ := hw.place
      exact absurd (.of_trail hk hk' hs) (hb e he).2

end Completed

section Suited

variable (hx : x.Undisturbed) (hl : s.files.Leads names base) (hseen : s.seen = 0)
  (hsum : s.summary = {}) (hc : x.Completed names base done s t)

include hl hseen hsum hc

theorem Completed.ready
    (ha : x.limits.Suits s.files names base ((done ++ e :: es).map (·.header))) :
    x.limits.check (t.seen + 1) t.summary.bytesExtracted e.header.size = .ok () ∧
    resolve x.limits (pathTo names) e.header.fullPath = .ok (pathTo (e.header.trail ++ names)) ∧
    HasPlace t.files names base e.header := by
  have hm : e.header ∈ (done ++ e :: es).map (·.header) := by simp
  have ⟨_, hcomponents⟩ := ha.accepted e.header hm
  have ⟨hul, hue⟩ := hc.bytes_of_start hsum
  have htotal := ha.totalSize
  simp only [List.map_append, List.map_cons, List.map_map, List.sum_append, List.sum_cons,
    Function.comp_def] at htotal
  have happart : ∀ a ∈ done, ¬ a.header.Blocks e.header ∧ ¬ e.header.Blocks a.header := by
    have hpair := ha.apart
    rw [List.map_append, List.pairwise_append] at hpair
    exact fun a ha => hpair.2.2 _ (List.mem_map_of_mem ha) e.header List.mem_cons_self
  refine ⟨Limits.check_of_allows ⟨?files, ha.fileSize _ hm, fun _ => ?totalSize⟩ hul,
    resolve_of_components hl.ordinary hcomponents, hc.hasPlace (ha.place _ hm) happart⟩
  case files =>
    have hfiles := ha.files done.length (by simp)
    rwa [UInt64.ofNat_add, ← UInt64.zero_add (.ofNat done.length), ← hseen, ← hc.seen_eq] at hfiles
  case totalSize =>
    rw [hue]
    omega

include hx

theorem passes_suited (hh : Archive.Spans x.limits.componentLength front es)
    (hs : t.input.Supplies (front ++ rest) ending)
    (ha : x.limits.Suits s.files names base ((done ++ es).map (·.header))) :
    ∃ u, x.Passes (pathTo names) es.length t u ∧ x.Completed names base (done ++ es) s u ∧
      u.input.Supplies rest ending := by
  induction hh generalizing done t with
  | nil => exact ⟨t, .none t, by rwa [List.append_nil], hs⟩
  | @cons b h payload pad front es hz hd hb hp _ ih =>
    have ⟨hcheck, hr, hplace⟩ := hc.ready hl hseen hsum ha
    have hbytes : b.bytes ++ payload ++ pad ++ front ++ rest =
        b.bytes ++ (payload ++ pad ++ (front ++ rest)) := by simp
    rw [hbytes] at hs
    have ⟨u, hu, he, hrest⟩ :=
      record_supplied hx hs hz hd (hc.leads hl) hcheck hr hplace rfl hb hp
    have ⟨v, hv, hcv, hrest⟩ := ih (hc.snoc he) hrest (by simpa using ha)
    exact ⟨v, .next hu hv, by simpa using hcv, hrest⟩

end Suited

theorem records_of_passes {root : Path} {n : Nat} (h : x.Passes root n s t) :
    x.records root s = x.records root t := by
  induction h with
  | none => rfl
  | next hr _ ih => rw [records_of_next hr, ih]

theorem records_ended (hx : x.cancelAfter = none) (hl : s.files.Leads names base)
    (hs : s.input.Supplies bytes ending)
    (hh : Archive.Holds x.limits.componentLength ending bytes []) :
    ∃ t, x.records (pathTo names) s = .ok () t ∧ t.files = s.files ∧ t.summary = s.summary := by
  have ⟨t, ht⟩ := record_ended (pathTo names) hx (hs.readRecord_none hh)
  have ⟨hf, hsum, _⟩ := (record_ends x hl).of_ok ht
  exact ⟨t, records_of_end ht, hf, hsum⟩

theorem extract_completed {source : Source} {destination : Path} {fs fs' : FileSystem}
    {summary : Summary} (h : x.extract source destination fs = .ok summary fs') :
    ∃ names base s es t, Begins source destination fs names base s ∧
      Archive.Holds x.limits.componentLength s.input.ending s.input.remaining es ∧
      x.Completed names base es s t ∧ summary = t.summary ∧ fs' = t.files := by
  have ⟨names, base, s, u, t, hs, hsummary, hfs⟩ := (extract_ends x source destination fs).of_ok h
  have hb := hs.begins
  have ⟨_, hp⟩ := hs.passes
  have ⟨es, _, hc⟩ := hp.completed hb.leads
  have ⟨hf, hsum, hend⟩ := (record_ends x (hc.leads hb.leads)).of_ok hs.last
  have hj := Source.joints_of_open hb.opens
  exact ⟨names, base, s, es, u, hb, hc.holds hj (hend (hc.joints.trans hj)), hc,
    hsummary.trans hsum, hfs.trans hf⟩

theorem extract_write_completed {entries : List Entry} {schedule : Schedule} {destination : Path}
    {fs fs' : FileSystem} {summary : Summary} (hs : ∀ e ∈ entries, e.Storable)
    (h : x.extract (.reader (Archive.write entries) ending schedule) destination fs =
      .ok summary fs') :
    (∀ e ∈ entries, e.header.name.length ≤ x.limits.componentLength.toNat ∧
      e.header.leading.length ≤ x.limits.componentLength.toNat) ∧
    ∃ names base s t,
      Begins (.reader (Archive.write entries) ending schedule) destination fs names base s ∧
      x.Completed names base (entries.map Entry.written) s t ∧
      summary = t.summary ∧ fs' = t.files := by
  have ⟨names, base, s, es, t, hb, hh, hc, heq⟩ := extract_completed h
  have hes := hh.entries?
  rw [← Except.ok.inj hb.opens] at hes
  have hbounds := Archive.bounds_of_entries? hs hes
  have hw := Archive.holds_write ending fun e he => ⟨hs e he, hbounds e he⟩
  cases hes.symm.trans hw.entries?
  exact ⟨hbounds, names, base, s, t, hb, hc, heq⟩

theorem extract_of_suits {source : Source} {destination : Path} {fs : FileSystem}
    (hx : x.Undisturbed) (hb : Begins source destination fs names base s)
    (hh : Archive.Holds x.limits.componentLength s.input.ending s.input.remaining es)
    (ha : x.limits.Suits s.files names base (es.map (·.header))) :
    ∃ t, x.Completed names base es s t ∧
      x.extract source destination fs = .ok t.summary t.files := by
  have hj := Source.joints_of_open hb.opens
  have ⟨front, tail, hr, hspans, hend⟩ := hh.exists_spans
  have ⟨t, hp, hc, hs⟩ := passes_suited hx hb.leads hb.seen hb.summary (.nil s) hspans
    ⟨hj, hr, rfl⟩ ha
  have ⟨u, hu, hf, hsum⟩ := records_ended hx.uncancelled (hc.leads hb.leads) hs hend
  refine ⟨t, hc, ?_⟩
  rw [hb.extract_of_ok ((records_of_passes hp).trans hu), hf, hsum]

end Extractor
end TarGuard
