import TarGuard.Proofs.Concatenation
import TarGuard.Proofs.Simulation

namespace TarGuard

open FileSystem SecureDirectory Extraction

section Grown

variable {fs fs' : FileSystem} {new : Location → Node → Prop}

theorem FileSystem.status_of_grows {p : Path} {node : Node} (g : Grows new fs fs')
    (h : fs.status p = .ok node) (hl : ∀ t, node ≠ .link t) : fs'.status p = .ok node := by
  obtain ⟨loc, hloc, hn⟩ := status_eq_ok_iff.mp h
  have hloc' := locate_of_grows hloc g fun t ht => hl t (Option.some_inj.mp ((g.kept hn).symm.trans ht))
  exact status_eq_ok_iff.mpr ⟨loc, hloc', g.kept hn⟩

theorem Source.open_of_grows {source : Source} {input : Input} (g : Grows new fs fs')
    (h : source.open fs = .ok input) : source.open fs' = .ok input := by
  cases source with
  | reader => exact h
  | file archive =>
    rw [Source.open, Input.openFile] at *
    split at h
    case h_1 f hs =>
      rw [status_of_grows g hs fun _ => Node.noConfusion]
      exact h
    case h_2 => cases h
    case h_3 => cases h

end Grown

section Occupied

variable {fs : FileSystem} {base loc : Location} {root trail names : List String} {name : String}

theorem OutputFile.create_of_file (failure? : Option Failure) (h : fs.Leads names loc)
    (hn : IsOrdinary name) (hz : '\x00' ∉ name.toList) {f : File}
    (hf : fs.node? (name :: loc) = some (.file f)) :
    create failure? (pathTo (name :: names)) fs = .error .writeFailed fs := by
  rw [create_apply, h.createFile_cons hn hz, h.linkStatus_cons hn hz]
  by_cases hfit : Fits names name
  · simp only [if_pos hfit, hf, existing]
  · simp only [if_neg hfit]

end Occupied

def Session.Over (files : FileSystem) (s s' : Session) : Prop :=
  s' = { s with files := files }

namespace Simulates

variable {files : FileSystem}

theorem onInput (p : EStateM ExtractError Input α) :
    Simulates (Session.Over files) (onInput p) (onInput p) := by
  rintro s _ a t rfl h
  cases hp : p s.input with
  | ok b input =>
    rw [onInput_of_ok hp] at h
    cases h
    exact ⟨_, onInput_of_ok (s := { s with files := files }) hp, rfl⟩
  | error e input => cases (onInput_of_error hp).symm.trans h

theorem onFiles {p : EStateM ExtractError FileSystem Unit} (h : p files = .ok () files) :
    Simulates (Session.Over files) (onFiles p) (onFiles p) := by
  rintro s _ a t rfl ht
  cases hp : p s.files with
  | ok b fs =>
    rw [onFiles_of_ok hp] at ht
    cases ht
    exact ⟨_, onFiles_of_ok (s := { s with files := files }) h, rfl⟩
  | error e fs => cases (onFiles_of_error hp).symm.trans ht

theorem count (f : Summary → Summary) :
    Simulates (Session.Over files) (count f) (count f) :=
  modify fun _ _ h => h ▸ rfl

theorem checkCancelled (x : Extractor) :
    Simulates (Session.Over files) x.checkCancelled x.checkCancelled := by
  rintro s _ a t rfl h
  rw [x.checkCancelled_eq] at h ⊢
  split at h
  case isTrue => cases h
  case isFalse hn =>
    cases h
    exact ⟨_, if_neg hn, rfl⟩

theorem enforceLimits (x : Extractor) (size : UInt64) :
    Simulates (Session.Over files) (x.enforceLimits size) (x.enforceLimits size) := by
  rintro s _ a t rfl h
  obtain ⟨rfl, hc⟩ := (x.enforceLimits_ends size s).of_ok h
  exact ⟨_, x.enforceLimits_of_check (s := { s with files := files }) hc, rfl⟩

theorem next (x : Extractor) (root : Path) :
    Simulates (Session.Over files) (x.next root) (x.next root) := by
  refine .bind (checkCancelled x) fun _ => .bind (onInput _) fun o => ?_
  cases o with
  | none => exact .pure _
  | some b =>
    refine .bind (.require fun _ h => h) fun h => .bind (enforceLimits x h.size) fun _ => ?_
    exact .bind (.require fun _ h => h) fun _ => .pure _

end Simulates

namespace Extractor

variable {x : Extractor} {s t : Session} {base : Location} {names : List String} {e : Entry}
  {h : Header} {files : FileSystem} {root target : Path}

theorem next_of_record_end (hr : x.record root s = .ok false t) : x.next root s = .ok none t := by
  have hends : Ends (x.record root) s (fun more t => more = false → x.next root s = .ok none t)
      (fun _ _ => True) := by
    rw [record_eq]
    refine (Ends.eq (x.next root) s).bind (fun _ _ _ => trivial) fun o u hn => ?_
    match o with
    | none => exact Ends.pure fun _ => hn
    | some (h, target) =>
      refine Ends.any.bind (fun _ _ _ => trivial) fun _ _ _ => ?_
      exact Ends.modify_bind (Ends.pure fun hf => absurd hf (by decide))
  exact hends.of_ok hr rfl

theorem record_end_again (hr : x.record root s = .ok false t) (files : FileSystem) :
    x.record root { s with files := files } = .ok false { t with files := files } := by
  obtain ⟨_, hn, rfl⟩ := Simulates.next x root s _ _ _ rfl (next_of_record_end hr)
  rw [record_eq]
  exact bind_of_ok hn

theorem dispatch_again (hk : h.kind ≠ .regular)
    (hd : h.kind = .directory → make root target files = .ok () files) :
    Simulates (Session.Over files) (x.dispatch root target h) (x.dispatch root target h) := by
  cases hkind : h.kind with
  | directory =>
    rw [dispatch_directory hkind]
    exact .bind (.onFiles (hd hkind)) fun _ => .bind (.onInput _) fun _ => .count _
  | regular => exact absurd hkind hk
  | hardLink =>
    rw [dispatch_link (.inl hkind)]
    exact fun _ _ _ _ _ he => nomatch he
  | symbolicLink =>
    rw [dispatch_link (.inr hkind)]
    exact fun _ _ _ _ _ he => nomatch he
  | other flag =>
    rw [dispatch_other hkind]
    exact .bind (.onInput _) fun _ => .count _

theorem dispatch_file_again (hl : s.files.Leads names base)
    (ha : EntryPath.Accepted x.limits h.fullPath)
    (hfit : (pathTo (h.trail ++ names)).text.utf8ByteSize ≤ maxPathBytes) {f : File}
    (hf : s.files.node? (h.trail ++ base) = some (.file f)) (hk : h.kind = .regular) :
    x.dispatch (pathTo names) (pathTo (h.trail ++ names)) h s = .error .writeFailed s := by
  have ⟨name, above, ht⟩ := h.exists_trail_eq_cons
  have ho : AllOrdinary h.trail := ha.allOrdinary
  have hz : ∀ n ∈ h.trail, '\x00' ∉ n.toList := ha.no_nul
  rw [ht] at ho hz hf hfit
  have hza : ∀ n ∈ above, '\x00' ∉ n.toList := fun n hn => hz n (List.mem_cons_of_mem _ hn)
  have hd : s.files.IsDirectory (above ++ base) := isDirectory_of_node?_cons hf
  have hfita := Nat.le_trans (utf8ByteSize_pathTo_le_cons _ _) hfit
  have hmake := make_of_isDirectory hl ho.tail hfita hd
  have hleads := ((make_ends hl ho.tail).of_ok hmake).2
  have hcreate := OutputFile.create_of_file (x.failure? s.input.delivered) hleads ho.head
    (hz name List.mem_cons_self) hf
  rw [dispatch_regular hk, ht, List.cons_append]
  refine bind_of_error ?_
  rw [writeFile, makeParent_cons ((ho.tail.append hl.ordinary).cons ho.head),
    bind_of_ok (onFiles_of_ok hmake)]
  exact bind_of_error (onOutput_of_error hcreate)

theorem Completes.utf8ByteSize_le (hc : x.Completes names base e s t)
    (hk : e.header.kind = .directory ∨ e.header.kind = .regular) :
    (pathTo (e.header.trail ++ names)).text.utf8ByteSize ≤ maxPathBytes :=
  have ⟨ht, _⟩ := locate_eq_ok_iff.mp (hc.added.located hk)
  utf8ByteSize_le_of_checkText ht

theorem record_again (hl : s.files.Leads names base)
    (hr : x.record (pathTo names) s = .ok true t) (g : Grows (fun _ _ => True) t.files files) :
    ∃ e, x.Completes names base e s t ∧
      (e.header.kind ≠ .regular →
        x.record (pathTo names) { s with files := files } = .ok true { t with files := files }) ∧
      (e.header.kind = .regular → ∃ u : Session,
        x.record (pathTo names) { s with files := files } =
          .error .writeFailed { u with files := files }) := by
  have ⟨e, hc⟩ := (record_ends x hl).of_ok hr
  refine ⟨e, hc, ?_⟩
  rw [record_eq] at hr ⊢
  cases hn : x.next (pathTo names) s with
  | error e u => cases (bind_of_error hn).symm.trans hr
  | ok o u =>
    rw [bind_of_ok hn] at hr
    have hbegun := (next_ends x hl.ordinary s).of_ok hn
    -- The stream is the same, so the same is next.
    have hnext : Simulates (Session.Over files) _ _ := .next x (pathTo names)
    obtain ⟨_, hn', rfl⟩ := hnext s _ _ _ rfl hn
    rw [bind_of_ok hn']
    match o with
    | none => cases hr
    | some (h, target) =>
      obtain ⟨hb, rfl⟩ := hbegun
      have he : h = e.header := hb.header.unique hc.header
      subst he
      have ha := EntryPath.accepted_of_resolve hb.resolved
      have hleads : files.Leads names base := (hc.leads hl).grows g
      constructor
      case left =>
        intro hk
        have hdispatch : Simulates (Session.Over files) _ _ := dispatch_again (x := x) hk fun hd =>
          make_of_isDirectory hleads ha.allOrdinary (hc.utf8ByteSize_le (.inl hd))
            (g.isDirectory (hc.added.directory hd))
        have hcount : Simulates (Session.Over files) _ _ := .count fun s =>
          { s with bytesExtracted := s.bytesExtracted + e.header.size }
        have hrest := hdispatch.bind fun _ => hcount.bind fun _ => .pure true
        obtain ⟨_, ht, rfl⟩ := hrest u _ true t rfl hr
        exact ht
      case right =>
        intro hk
        have hfit := hc.utf8ByteSize_le (.inr hk)
        have hfile := g.kept (hc.added.file hk)
        have hdispatch := dispatch_file_again (s := { u with files := files }) hleads ha hfit hfile hk
        exact ⟨u, bind_of_error hdispatch⟩

theorem Passes.again {n : Nat} (hp : x.Passes (pathTo names) n s t)
    (hl : s.files.Leads names base) (g : Grows (fun _ _ => True) t.files files) :
    ∃ es, x.Completed names base es s t ∧
      ((∀ e ∈ es, e.header.kind ≠ .regular) →
        x.records (pathTo names) { s with files := files } =
          x.records (pathTo names) { t with files := files }) ∧
      ((∃ e ∈ es, e.header.kind = .regular) → ∃ u : Session,
        x.records (pathTo names) { s with files := files } =
          .error .writeFailed { u with files := files }) := by
  induction hp with
  | none s => exact ⟨[], .nil s, fun _ => rfl, fun ⟨_, he, _⟩ => absurd he List.not_mem_nil⟩
  | @next s v t n hr _ ih =>
    have ⟨_, hc⟩ := (record_ends x hl).of_ok hr
    have ⟨es, hes, hpass, hstop⟩ := ih (hc.leads hl) g
    have hkept : Grows (fun _ _ => True) v.files files :=
      (hes.grows.mono fun _ _ _ => trivial).trans g
    have ⟨e, hc, hagain, hthere⟩ := record_again hl hr hkept
    refine ⟨e :: es, .cons hc hes, ?_, ?_⟩
    · intro hk
      have ⟨hk, hks⟩ := List.forall_mem_cons.mp hk
      rw [records_of_next (hagain hk), hpass hks]
    · intro hk
      by_cases hke : e.header.kind = .regular
      case pos =>
        have ⟨u, hu⟩ := hthere hke
        exact ⟨u, records_of_error hu⟩
      case neg =>
        rw [records_of_next (hagain hke)]
        obtain ⟨e', he', hk'⟩ := hk
        rcases List.mem_cons.mp he' with rfl | he'
        · exact absurd hk' hke
        · exact hstop ⟨e', he', hk'⟩

theorem extract_again {x : Extractor} {source : Source} {destination : Path} {fs fs' : FileSystem}
    {summary : Summary} (h : x.extract source destination fs = .ok summary fs') :
    ∃ input es, source.open fs = .ok input ∧
      Archive.entries? x.limits.componentLength input.remaining = some es ∧
      x.extract source destination fs' =
        if ∃ e ∈ es, e.header.kind = .regular then .error .writeFailed fs' else .ok summary fs' := by
  obtain ⟨names, base, s, u, t, hs, rfl, rfl⟩ := (extract_ends x source destination fs).of_ok h
  have hb := hs.begins
  have ⟨_, hp⟩ := hs.passes
  have hj := Source.joints_of_open hb.opens
  have ⟨es, hc, hpass, hstop⟩ := hp.again hb.leads (Grows.refl u.files)
  have ⟨hf, hsum, hend⟩ := (record_ends x (hc.leads hb.leads)).of_ok hs.last
  -- The second time all is read as it was, and the files are those that the first time left.
  have hkept : Grows (fun _ _ => True) fs u.files :=
    (hb.grows.mono fun _ _ _ => trivial).trans (hc.grows.mono fun _ _ _ => trivial)
  have hb' := hb.resume hc.grows (Source.open_of_grows hkept hb.opens)
  have hs' : { s with files := u.files } = { files := u.files, input := s.input } :=
    Session.ext rfl rfl hb.seen hb.summary
  rw [hs'] at hpass hstop
  refine ⟨s.input, es, hb.opens, hc.entries? hj (hend (hc.joints.trans hj)), ?_⟩
  rw [hf]
  by_cases hfile : ∃ e ∈ es, e.header.kind = .regular
  case pos =>
    have ⟨v, hv⟩ := hstop hfile
    rw [if_pos hfile, hb'.extract_of_error hv]
  case neg =>
    have hlast := records_of_end (record_end_again hs.last u.files)
    rw [← hpass fun e he hk => hfile ⟨e, he, hk⟩] at hlast
    rw [if_neg hfile, hb'.extract_of_ok hlast]

theorem extract_again_docs :
    (∃ summary fs',
      Extractor.extract {} (.reader (Archive.write [Entry.docs, Entry.nested]) .finished
        Input.plainSchedule) ⟨"out"⟩ (FileSystem.root 0) = .ok summary fs' ∧
      Extractor.extract {} (.reader (Archive.write [Entry.docs, Entry.nested]) .finished
        Input.plainSchedule) ⟨"out"⟩ fs' = .error .writeFailed fs') ∧
    ∃ summary fs',
      Extractor.extract {} (.reader (Archive.write [Entry.docs]) .finished
        Input.plainSchedule) ⟨"out"⟩ (FileSystem.root 0) = .ok summary fs' ∧
      Extractor.extract {} (.reader (Archive.write [Entry.docs]) .finished
        Input.plainSchedule) ⟨"out"⟩ fs' = .ok summary fs' := by
  have ⟨summary, fs', h⟩ := extract_docs_nested .finished Input.plainSchedule
  have ⟨hdocs, hnested⟩ := List.forall_mem_cons.mp Entry.storable_docs_nested
  have hdocs : ∀ e ∈ [Entry.docs], e.Storable := List.forall_mem_singleton.mpr hdocs
  have ⟨summary₁, fs₁, _, h₁, _⟩ : ∃ summary₁ fs₁ summary₂,
      Extractor.extract {} (.reader (Archive.write [Entry.docs]) .finished Input.plainSchedule)
        ⟨"out"⟩ (FileSystem.root 0) = .ok summary₁ fs₁ ∧
      Extractor.extract {} (.reader (Archive.write [Entry.nested]) .finished Input.plainSchedule)
        ⟨"out"⟩ fs₁ = .ok summary₂ fs' ∧ _ := extract_parts (.of_limits {}) hdocs hnested h
  constructor
  case left =>
    have ⟨_, _, hopen, hes, hagain⟩ := extract_again h
    cases hopen
    cases hes.symm.trans Archive.entries?_docs_nested
    have hfile : Entry.nested.written.header.kind = .regular := Entry.kind_written Entry.nested
    exact ⟨summary, fs', h, hagain.trans (if_pos ⟨_, List.mem_cons_of_mem _ List.mem_cons_self,
      hfile⟩)⟩
  case right =>
    have ⟨_, _, hopen, hes, hagain⟩ := extract_again h₁
    cases hopen
    have hw : Archive.Holds 255 .finished (Archive.write [Entry.docs]) [Entry.docs.written] :=
      Archive.holds_write .finished (List.forall_mem_singleton.mpr ⟨hdocs _ List.mem_cons_self,
        by decide⟩)
    cases hes.symm.trans hw.entries?
    have hdirectory : Entry.docs.written.header.kind = .directory := Entry.kind_written Entry.docs
    exact ⟨summary₁, fs₁, h₁, hagain.trans (if_neg (by simp [hdirectory]))⟩

end Extractor
end TarGuard
