import TarGuard.Archive
import TarGuard.Proofs.Entry

namespace TarGuard

open FileSystem OutputFile SecureDirectory EntryPath

def Summary.with (s : Summary) (h : Header) : Summary :=
  let s := match h.kind with
    | .directory => { s with directoriesCreated := s.directoriesCreated + 1 }
    | .regular => { s with filesWritten := s.filesWritten + 1 }
    | .hardLink | .symbolicLink => s
    | .other _ => { s with entriesSkipped := s.entriesSkipped + 1 }
  { s with bytesExtracted := s.bytesExtracted + h.size }

namespace Entry

-- The nodes that an entry adds where nothing is: itself, and the directories above it.
inductive Provides (base : Location) (clock : Int) (e : Entry) : Location → Node → Prop
  | above {l node} : e.header.kind = .directory ∨ e.header.kind = .regular →
    IsOnTrail base e.header.trail.tail l node → Provides base clock e l node
  | directory : e.header.kind = .directory →
    Provides base clock e (e.header.trail ++ base) (.directory SecureDirectory.mode)
  | file : e.header.kind = .regular →
    Provides base clock e (e.header.trail ++ base) (.file ⟨e.payload, OutputFile.mode, clock⟩)

theorem Provides.of_isOnTrail {base l : Location} {clock : Int} {e : Entry} {node : Node}
    (hk : e.header.kind = .directory) (h : IsOnTrail base e.header.trail l node) :
    e.Provides base clock l node := by
  cases h.eq_or_tail with
  | inl he =>
    rw [he.1, he.2]
    exact .directory hk
  | inr ht => exact .above (.inl hk) ht

structure Added (root : List String) (base : Location) (e : Entry) (fs fs' : FileSystem) :
    Prop where
  grows     : Grows (e.Provides base fs.clock) fs fs'
  located   : e.header.kind = .directory ∨ e.header.kind = .regular →
    fs'.locate .status (pathTo (e.header.trail ++ root)) = .ok (e.header.trail ++ base)
  directory : e.header.kind = .directory → fs'.IsDirectory (e.header.trail ++ base)
  fresh     : e.header.kind = .regular → fs.node? (e.header.trail ++ base) = none
  file      : e.header.kind = .regular →
    fs'.node? (e.header.trail ++ base) = some (.file ⟨e.payload, OutputFile.mode, fs.clock⟩)

end Entry

namespace Extractor

-- What is left of an entry that an extraction fails at: directories above it, and the directory
-- that it is itself.
inductive MayLeave (x : Extractor) (root : List String) (base : Location) (h : Header) :
    Location → Node → Prop
  | above {l node} : resolve x.limits (pathTo root) h.fullPath = .ok (pathTo (h.trail ++ root)) →
    IsOnTrail base h.trail.tail l node → MayLeave x root base h l node
  | directory : resolve x.limits (pathTo root) h.fullPath = .ok (pathTo (h.trail ++ root)) →
    h.kind = .directory → MayLeave x root base h (h.trail ++ base) (.directory SecureDirectory.mode)

theorem MayLeave.isDirectory {x : Extractor} {root : List String} {base l : Location} {h : Header}
    {node : Node} (hw : x.MayLeave root base h l node) : node.isDirectory := by
  cases hw with
  | above _ ht => rw [ht.1]; rfl
  | directory => rfl

structure Completes (x : Extractor) (root : List String) (base : Location) (e : Entry)
    (s t : Session) : Prop where
  header   : x.NextHeader s e.header
  checked  : x.limits.check (s.seen + 1) s.summary.bytesExtracted e.header.size = .ok ()
  resolved : resolve x.limits (pathTo root) e.header.fullPath =
    .ok (pathTo (e.header.trail ++ root))
  not_link : e.header.kind ≠ .hardLink ∧ e.header.kind ≠ .symbolicLink
  added    : e.Added root base s.files t.files
  seen     : t.seen = s.seen + 1
  summary  : t.summary = s.summary.with e.header
  length   : e.payload.length = e.header.size.toNat
  delivers : ∃ b pad, ¬ isZero b.bytes ∧ Header.decode b x.limits.componentLength = .ok e.header ∧
    pad.length = (padding e.header.size).toNat ∧
    s.input.Delivers (b.bytes ++ e.payload ++ pad) t.input

variable {x : Extractor} {s : Session} {base : Location} {root : List String} {h : Header}

theorem skipPayload_ends (hp : h.paddedSize = .ok (h.size.toNat + (padding h.size).toNat))
    (s : Input) :
    Ends (Input.skipPayload h) s
      (fun _ t => ∃ payload pad, payload.length = h.size.toNat ∧
        pad.length = (padding h.size).toNat ∧ s.Delivers (payload ++ pad) t)
      (fun e _ => e = .readFailed) := by
  rw [Input.skipPayload, hp]
  refine (Input.skip_ends _ s).imp ?_ fun _ _ h => h
  rintro _ t ⟨bytes, hb, hd⟩
  refine ⟨bytes.take h.size.toNat, bytes.drop h.size.toNat, ?_, ?_, by rwa [List.take_append_drop]⟩
  · rw [List.length_take]
    omega
  · rw [List.length_drop]
    omega

structure Dispatches (root : List String) (base : Location) (e : Entry) (pad : List UInt8)
    (s t : Session) : Prop where
  not_link : e.header.kind ≠ .hardLink ∧ e.header.kind ≠ .symbolicLink
  length   : e.payload.length = e.header.size.toNat
  padding  : pad.length = (padding e.header.size).toNat
  delivers : s.input.Delivers (e.payload ++ pad) t.input
  added    : e.Added root base s.files t.files
  seen     : t.seen = s.seen
  summary  : { t.summary with
    bytesExtracted := t.summary.bytesExtracted + e.header.size } = s.summary.with e.header

structure Stops (x : Extractor) (root : List String) (base : Location) (h : Header) (s : Session)
    (e : ExtractError) (t : Session) : Prop where
  grows   : Grows (x.MayLeave root base h) s.files t.files
  refused : e ∈ ExtractError.refusals → t.files = s.files

theorem Stops.of_files {e : ExtractError} {t : Session} (hf : t.files = s.files) :
    x.Stops root base h s e t where
  grows := hf ▸ Grows.refl t.files
  refused _ := hf

section Dispatch

variable {p target : Path}

theorem dispatch_directory (hk : h.kind = .directory) :
    x.dispatch p target h = (do
      Extraction.onFiles (SecureDirectory.make p target)
      Extraction.onInput (Input.skipPayload h)
      Extraction.count fun s => { s with directoriesCreated := s.directoriesCreated + 1 }) := by
  rw [dispatch, hk]

theorem dispatch_regular (hk : h.kind = .regular) :
    x.dispatch p target h = (do
      x.writeFile p target h.size
      Extraction.count fun s => { s with filesWritten := s.filesWritten + 1 }) := by
  rw [dispatch, hk]

theorem dispatch_link (hk : h.kind = .hardLink ∨ h.kind = .symbolicLink) :
    x.dispatch p target h = throw .linkDetected := by
  cases hk with
  | inl hk | inr hk => rw [dispatch, hk]

theorem dispatch_other {flag : UInt8} (hk : h.kind = .other flag) :
    x.dispatch p target h = (do
      Extraction.onInput (Input.skipPayload h)
      Extraction.count fun s => { s with entriesSkipped := s.entriesSkipped + 1 }) := by
  rw [dispatch, hk]

end Dispatch

section Kinds

variable (hl : s.files.Leads root base)
  (hr : resolve x.limits (pathTo root) h.fullPath = .ok (pathTo (h.trail ++ root)))
  (hp : h.paddedSize = .ok (h.size.toNat + (padding h.size).toNat))

include hl hr hp in
theorem dispatch_directory_ends (hk : h.kind = .directory) :
    Ends (x.dispatch (pathTo root) (pathTo (h.trail ++ root)) h) s
      (fun _ t => ∃ payload pad, Dispatches root base ⟨h, payload⟩ pad s t)
      (x.Stops root base h s) := by
  have ha := accepted_of_resolve hr
  have hleave : ∀ l node, IsOnTrail base h.trail l node → x.MayLeave root base h l node := by
    intro l node hw
    cases hw.eq_or_tail with
    | inl he =>
      rw [he.1, he.2]
      exact .directory hr hk
    | inr ht => exact .above hr ht
  rw [dispatch_directory hk]
  refine (Ends.onFiles (make_ends hl ha.allOrdinary)).bind ?stopped ?made
  case stopped =>
    rintro e t ⟨files, ⟨g, he⟩, rfl⟩
    refine ⟨g.mono fun l node hw => hleave l node (hw.mono (List.tail_suffix _)), ?_⟩
    rcases he with ⟨-, hs⟩ | rfl
    · exact fun _ => hs
    · exact fun hr => absurd hr (by decide)
  case made =>
    rintro _ t ⟨files, ⟨g, hd⟩, rfl⟩
    have hskip := Ends.onInput (s := { s with files := files }) (skipPayload_ends hp s.input)
    refine hskip.bind ?broken ?skipped
    case broken =>
      rintro e t ⟨input, rfl, rfl⟩
      exact ⟨g.mono hleave, fun hr => absurd hr (by decide)⟩
    case skipped =>
      rintro _ t ⟨input, ⟨payload, pad, hb, hpad, hi⟩, rfl⟩
      apply Ends.modify
      refine ⟨payload, pad, by simp [hk], hb, hpad, hi, ?_, rfl, by simp [Summary.with, hk]⟩
      exact {
        grows := g.mono fun l node hw => .of_isOnTrail hk hw
        located := fun _ => hd.locate
        directory := fun _ => hd.isDirectory
        fresh := fun hr => by simp [hk] at hr
        file := fun hr => by simp [hk] at hr }

include hl hr in
theorem dispatch_regular_ends (hk : h.kind = .regular) :
    Ends (x.dispatch (pathTo root) (pathTo (h.trail ++ root)) h) s
      (fun _ t => ∃ payload pad, Dispatches root base ⟨h, payload⟩ pad s t)
      (x.Stops root base h s) := by
  have ha := accepted_of_resolve hr
  have ⟨name, above, ht⟩ := h.exists_trail_eq_cons
  have ho : AllOrdinary h.trail := ha.allOrdinary
  have hz : ∀ n ∈ h.trail, '\x00' ∉ n.toList := ha.no_nul
  rw [ht] at ho hz
  have hw := writeFile_ends (x := x) hl ho hz h.size
  rw [dispatch_regular hk]
  simp only [ht, List.cons_append]
  refine hw.bind ?stopped ?written
  case stopped =>
    rintro e t ⟨files, input, g, rfl, he⟩
    refine ⟨g.mono fun l node hw => .above hr ?_, ?_⟩
    · simpa [ht] using hw
    · rcases he with ⟨-, hs⟩ | rfl | he
      · exact fun _ => hs
      · exact fun hr => absurd hr (by decide)
      · exact fun hr => absurd hr (ExtractError.not_mem_refusals he)
  case written =>
    rintro _ t ⟨files, payload, pad, input, g, hfree, hloc, hb, hpad, hi, rfl⟩
    apply Ends.modify
    refine ⟨payload, pad, by simp [hk], hb, hpad, hi, ?_, rfl, by simp [Summary.with, hk]⟩
    have hclock := g.clock
    have hat : h.trail ++ base = name :: (above ++ base) := by rw [ht, List.cons_append]
    exact {
      grows := by
        refine (g.mono fun l node hw => ?_).trans (hfree.grows_holding ?_)
        · exact .above (.inr hk) (by simpa [ht] using hw)
        · rw [← hat, hclock]
          exact .file hk
      located := fun _ => by simpa [ht] using hloc
      directory := fun hr => by simp [hk] at hr
      fresh := fun _ => g.absent (hat ▸ hfree.node)
      file := fun _ => by simp only [hat, hfree.node?_holding, hclock] }

include hp in
theorem dispatch_other_ends {flag : UInt8} (hk : h.kind = .other flag) :
    Ends (x.dispatch (pathTo root) (pathTo (h.trail ++ root)) h) s
      (fun _ t => ∃ payload pad, Dispatches root base ⟨h, payload⟩ pad s t)
      (x.Stops root base h s) := by
  rw [dispatch_other hk]
  refine (Ends.onInput (skipPayload_ends hp s.input)).bind ?broken ?skipped
  case broken =>
    rintro e t ⟨input, rfl, rfl⟩
    exact .of_files rfl
  case skipped =>
    rintro _ t ⟨input, ⟨payload, pad, hb, hpad, hi⟩, rfl⟩
    apply Ends.modify
    refine ⟨payload, pad, by simp [hk], hb, hpad, hi, ?_, rfl, by simp [Summary.with, hk]⟩
    exact {
      grows := Grows.refl _
      located := fun hr => by simp [hk] at hr
      directory := fun hr => by simp [hk] at hr
      fresh := fun hr => by simp [hk] at hr
      file := fun hr => by simp [hk] at hr }

include hl hr hp in
theorem dispatch_ends :
    Ends (x.dispatch (pathTo root) (pathTo (h.trail ++ root)) h) s
      (fun _ t => ∃ payload pad, Dispatches root base ⟨h, payload⟩ pad s t)
      (x.Stops root base h s) := by
  cases hk : h.kind with
  | directory => exact dispatch_directory_ends hl hr hp hk
  | regular => exact dispatch_regular_ends hl hr hk
  | hardLink =>
    rw [dispatch_link (.inl hk)]
    exact Ends.throw (.of_files rfl)
  | symbolicLink =>
    rw [dispatch_link (.inr hk)]
    exact Ends.throw (.of_files rfl)
  | other flag => exact dispatch_other_ends hp hk

end Kinds

theorem Begun.completes {e : Entry} {pad : List UInt8} {t u : Session}
    (hb : x.Begun root e.header s t) (hd : Dispatches root base e pad t u) :
    x.Completes root base e s
      { u with summary.bytesExtracted := u.summary.bytesExtracted + e.header.size } where
  header := hb.header
  checked := hb.checked
  resolved := hb.resolved
  not_link := hd.not_link
  added := hb.files ▸ hd.added
  seen := hd.seen.trans hb.seen
  summary := hb.summary ▸ hd.summary
  length := hd.length
  delivers := by
    have ⟨b, hz, hdec, hi⟩ := hb.delivers
    refine ⟨b, pad, hz, hdec, hd.padding, ?_⟩
    rw [List.append_assoc]
    exact hi.append hd.delivers

theorem record_ends (x : Extractor) (hl : s.files.Leads root base) :
    Ends (x.record (pathTo root)) s
      (fun more t => match more with
        | true => ∃ e, x.Completes root base e s t
        | false => t.files = s.files ∧ t.summary = s.summary ∧
          (s.input.joints = [] → s.input.AtEnd))
      (fun e t => Grows (fun l node => ∃ h, x.NextHeader s h ∧ x.MayLeave root base h l node)
          s.files t.files ∧
        (e ∈ ExtractError.refusals → t.files = s.files)) := by
  rw [record_eq]
  refine (next_ends x hl.ordinary s).bind ?refused ?begun
  case refused =>
    intro e t ht
    rw [ht]
    exact ⟨Grows.refl _, fun _ => rfl⟩
  case begun =>
    intro o t ho
    match o with
    | none => exact Ends.pure ho
    | some (h, target) =>
      have ⟨hb, htarget⟩ := ho
      subst htarget
      have hd := dispatch_ends (x := x) (hb.files ▸ hl) hb.resolved hb.paddedSize
      refine hd.bind ?failed ?dispatched
      case failed =>
        intro e u hs
        rw [← hb.files]
        exact ⟨hs.grows.mono fun l node hw => ⟨h, hb.header, hw⟩, hs.refused⟩
      case dispatched =>
        intro _ u ⟨payload, pad, hd⟩
        exact Ends.modify_bind (Ends.pure ⟨_, Begun.completes hb hd⟩)

end Extractor
end TarGuard
