import TarGuard.Proofs.Completeness

namespace TarGuard

open FileSystem OutputFile SecureDirectory Extraction

-- One program ends as another does, or it is interrupted, and then its last state is related to the
-- one that the other ends in.
inductive EndsSooner (r : σ → σ → Prop) (p q : EStateM ExtractError σ α) (s : σ) : Prop
  | alike : p s = q s → EndsSooner r p q s
  | interrupted {t} : p s = .error .interrupted t → r t (finalState q s) → EndsSooner r p q s

namespace EndsSooner

variable {r : σ → σ → Prop} {p q : EStateM ExtractError σ α} {f g : α → EStateM ExtractError σ β}
  {s t : σ}

theorem refl (p : EStateM ExtractError σ α) (s : σ) : EndsSooner r p p s :=
  .alike rfl

theorem of_ok {a : α} (h : EndsSooner r p q s) (hp : p s = .ok a t) : q s = .ok a t := by
  cases h with
  | alike he => exact he ▸ hp
  | interrupted he => cases he.symm.trans hp

theorem congr {p' q' : EStateM ExtractError σ α} (h : EndsSooner r p q t) (hp : p' s = p t)
    (hq : q' s = q t) : EndsSooner r p' q' s := by
  have hfinal : finalState q' s = finalState q t := by rw [finalState, finalState, hq]
  cases h with
  | alike he => exact .alike (hp.trans (he.trans hq.symm))
  | interrupted he hr => exact .interrupted (hp.trans he) (hfinal ▸ hr)

theorem final (h : EndsSooner r p q s) (hr : ∀ t, r t t) : r (finalState p s) (finalState q s) := by
  cases h with
  | alike he =>
    rw [finalState, he, ← finalState]
    exact hr _
  | interrupted he hu => exact finalState_of_error he ▸ hu

theorem relate {r' : σ → σ → Prop} (h : EndsSooner r' p q s)
    (hr : ∀ t, p s = .error .interrupted t → r t (finalState q s)) : EndsSooner r p q s := by
  cases h with
  | alike he => exact .alike he
  | interrupted he => exact .interrupted he (hr _ he)

theorem withCleanUp (h : EndsSooner (fun _ _ => True) p q s) (clean : σ → σ) :
    EndsSooner (fun _ _ => True) (withCleanUp clean p) (withCleanUp clean q) s := by
  cases h with
  | alike he => exact .alike (by simp only [TarGuard.withCleanUp, he])
  | @interrupted t he =>
    refine .interrupted (t := clean t) ?_ trivial
    simp only [TarGuard.withCleanUp, he]

theorem bind_of_eq (h : p s = q s) (hf : ∀ a t, q s = .ok a t → EndsSooner r (f a) (g a) t) :
    EndsSooner r (p >>= f) (q >>= g) s := by
  cases hq : q s with
  | ok a t => exact (hf a t hq).congr (bind_of_ok (h.trans hq)) (bind_of_ok hq)
  | error e t => exact .alike ((bind_of_error (h.trans hq)).trans (bind_of_error hq).symm)

-- What follows must not lead away from a state in which the other program was interrupted.
theorem bind (h : EndsSooner r p q s)
    (hr : ∀ {a t u}, q s = .ok a t → r u t → r u (finalState (g a) t))
    (hf : ∀ a t, q s = .ok a t → EndsSooner r (f a) (g a) t) :
    EndsSooner r (p >>= f) (q >>= g) s := by
  cases h with
  | alike he => exact bind_of_eq he hf
  | interrupted hp hu =>
    refine .interrupted (bind_of_error hp) ?_
    cases hq : q s with
    | ok a t =>
      rw [finalState_of_ok hq] at hu
      rw [finalState, bind_of_ok hq]
      exact hr hq hu
    | error e t =>
      rw [finalState_of_error hq] at hu
      rwa [finalState_of_error (bind_of_error hq)]

end EndsSooner

def Session.KeptBy (s t : Session) : Prop :=
  Grows (fun _ _ => True) s.files t.files

namespace Session.KeptBy

variable {new : Location → Node → Prop} {s t u : Session}

theorem of_grows (g : Grows new s.files t.files) : s.KeptBy t :=
  g.mono fun _ _ _ => trivial

theorem of_files (h : t.files = s.files) : s.KeptBy t := by
  rw [KeptBy, h]
  exact Grows.refl s.files

theorem trans (h : s.KeptBy t) (h' : t.KeptBy u) : s.KeptBy u :=
  Grows.trans h h'

end Session.KeptBy

namespace Extractor

structure StopsSooner (x y : Extractor) : Prop where
  limits   : x.limits = y.limits
  failure? : x.failure? = y.failure?
  stop     : ∀ n, y.cancelAfter.any (· ≤ n) → x.cancelAfter.any (· ≤ n)

theorem stopsSooner_of_le (x : Extractor) {c c' : Nat} (h : c ≤ c') :
    StopsSooner { x with cancelAfter := some c } { x with cancelAfter := some c' } where
  limits := rfl
  failure? := rfl
  stop n hn := by
    simp only [Option.any_some, decide_eq_true_eq] at *
    omega

theorem stopsSooner_none (x : Extractor) (c : Nat) :
    StopsSooner { x with cancelAfter := some c } { x with cancelAfter := none } where
  limits := rfl
  failure? := rfl
  stop _ hn := nomatch hn

variable {x y : Extractor} {s t : Session} {names root above : List String} {name : String}
  {base : Location} {es : List Entry} {source : Source} {destination : Path} {fs : FileSystem}

theorem record_keeps (x : Extractor) (hl : s.files.Leads names base) :
    s.KeptBy (finalState (x.record (pathTo names)) s) := by
  refine Ends.finalState ((record_ends x hl).imp ?_ fun _ _ h => .of_grows h.1)
  intro more t ht
  cases more with
  | true => exact .of_grows ht.choose_spec.added.grows
  | false => exact .of_files ht.1

theorem Passes.keeps {n : Nat} (h : x.Passes (pathTo names) n s t)
    (hl : s.files.Leads names base) :
    s.KeptBy (finalState (x.record (pathTo names)) t) := by
  have ⟨es, _, hc⟩ := h.completed hl
  have hk : s.KeptBy t := .of_grows hc.grows
  exact hk.trans (record_keeps x (hc.leads hl))

theorem records_keeps (x : Extractor) (hl : s.files.Leads names base) :
    s.KeptBy (finalState (x.records (pathTo names)) s) := by
  refine Ends.finalState ((records_ends x (pathTo names) s).imp ?_ ?_)
  · exact fun _ t ⟨n, u, hp, hu⟩ => finalState_of_ok hu ▸ hp.keeps hl
  · exact fun e t ⟨n, u, hp, hu⟩ => finalState_of_error hu ▸ hp.keeps hl

theorem record_keptBy_records (x : Extractor) (hl : s.files.Leads names base) :
    (finalState (x.record (pathTo names)) s).KeptBy (finalState (x.records (pathTo names)) s) := by
  cases hx : x.record (pathTo names) s with
  | ok more t =>
    rw [finalState_of_ok hx]
    cases more with
    | true =>
      have ⟨e, hc⟩ := (record_ends x hl).of_ok hx
      rw [finalState, records_of_next hx]
      exact records_keeps x (hc.leads hl)
    | false =>
      rw [finalState_of_ok (records_of_end hx)]
      exact .of_files rfl
  | error e t =>
    rw [finalState_of_error hx, finalState_of_error (records_of_error hx)]
    exact .of_files rfl

section Sooner

variable (h : x.StopsSooner y)

include h

theorem checkCancelled_sooner (s : Session) :
    x.checkCancelled s = y.checkCancelled s ∨ x.checkCancelled s = .error .interrupted s := by
  by_cases hx : x.cancelAfter.any (· ≤ s.input.delivered)
  case pos =>
    right
    simp only [checkCancelled, bind, EStateM.bind, get, getThe, MonadStateOf.get, get_apply, hx]
    rfl
  case neg =>
    left
    have hy := mt (h.stop s.input.delivered) hx
    simp only [checkCancelled, bind, EStateM.bind, get, getThe, MonadStateOf.get, get_apply, hx, hy]

theorem copyChunk_sooner (file : OutputFile) (left : Nat) (s : Session) :
    EndsSooner (fun _ _ => True) (x.copyChunk file left) (y.copyChunk file left) s := by
  cases checkCancelled_sooner h s with
  | inl he =>
    refine .bind_of_eq he fun _ t _ => ?_
    simp only [onOutput_congr h.failure?]
    exact .refl _ t
  | inr he => exact .interrupted (bind_of_error he) trivial

theorem copyPayload_sooner (file : OutputFile) (left : Nat) (s : Session) :
    EndsSooner (fun _ _ => True) (x.copyPayload file left) (y.copyPayload file left) s := by
  induction left using copyPayload.induct generalizing s with
  | case1 =>
    rw [copyPayload_zero, copyPayload_zero]
    exact .refl _ s
  | case2 left hl ih =>
    rw [copyPayload_eq hl, copyPayload_eq hl]
    exact (copyChunk_sooner h file left s).bind (fun _ _ => trivial) fun _ t _ => ih t

theorem fillFile_sooner (file : OutputFile) (size : UInt64) (s : Session) :
    EndsSooner (fun _ _ => True) (x.fillFile file size) (y.fillFile file size) s :=
  (copyPayload_sooner h file size.toNat s).bind (fun _ _ => trivial) fun _ _ _ => .refl _ _

-- A file that is interrupted is taken away again, and the other run has it whole or not at all.
theorem fillOrDiscard_sooner {files : FileSystem} (hl : files.Leads root base)
    (hn : IsOrdinary name) (hz : '\x00' ∉ name.toList) (hf : Fits root name)
    (hfree : IsFree files (name :: base)) (hs : s.files = holding files (name :: base) [])
    (size : UInt64) :
    EndsSooner Session.KeptBy (x.fillOrDiscard ⟨pathTo (name :: root), name :: base⟩ size)
      (y.fillOrDiscard ⟨pathTo (name :: root), name :: base⟩ size) s := by
  have hfill := (fillFile_sooner h ⟨pathTo (name :: root), name :: base⟩ size s).withCleanUp
    fun t => { t with files := OutputFile.discard ⟨pathTo (name :: root), name :: base⟩ t.files }
  refine hfill.relate fun t ht => ?_
  obtain ⟨input, rfl, -⟩ := (fillOrDiscard_ends hl hn hz hf hfree hs size).of_error ht
  refine Ends.finalState ((fillOrDiscard_ends hl hn hz hf hfree hs size).imp ?_ ?_)
  · rintro _ u ⟨bytes, pad, input', -, -, -, rfl⟩
    exact hfree.grows_holding trivial
  · rintro e u ⟨input', rfl, -⟩
    exact .of_files rfl

theorem writeFile_sooner (hl : s.files.Leads root base) (ho : AllOrdinary (name :: above))
    (hz : ∀ n ∈ name :: above, '\x00' ∉ n.toList) (size : UInt64) :
    EndsSooner Session.KeptBy (x.writeFile (pathTo root) (pathTo (name :: (above ++ root))) size)
      (y.writeFile (pathTo root) (pathTo (name :: (above ++ root))) size) s := by
  have hy : y.failure? s.input.delivered = x.failure? s.input.delivered := by rw [h.failure?]
  rcases writeFile_cases hl ho hz _ size with
    ⟨e, files, _, _, hw⟩ | ⟨files, _, hleads, hf, hfree, hw⟩
  · exact .alike ((hw x rfl).trans (hw y hy).symm)
  · have hfill := fillOrDiscard_sooner h (s := { s with files := holding files _ [] }) hleads
      ho.head (hz name List.mem_cons_self) hf hfree rfl size
    exact hfill.congr (hw x rfl) (hw y hy)

theorem dispatch_sooner {e : Header} (hl : s.files.Leads root base)
    (hr : EntryPath.resolve x.limits (pathTo root) e.fullPath = .ok (pathTo (e.trail ++ root))) :
    EndsSooner Session.KeptBy (x.dispatch (pathTo root) (pathTo (e.trail ++ root)) e)
      (y.dispatch (pathTo root) (pathTo (e.trail ++ root)) e) s := by
  cases hk : e.kind with
  | directory =>
    rw [dispatch_directory hk, dispatch_directory hk]
    exact .refl _ s
  | regular =>
    have ha := EntryPath.accepted_of_resolve hr
    have ⟨name, above, ht⟩ := e.exists_trail_eq_cons
    have ho : AllOrdinary e.trail := ha.allOrdinary
    have hz : ∀ n ∈ e.trail, '\x00' ∉ n.toList := ha.no_nul
    rw [ht] at ho hz
    rw [dispatch_regular hk, dispatch_regular hk, ht]
    exact (writeFile_sooner h hl ho hz e.size).bind (fun _ hu => hu) fun _ _ _ => .refl _ _
  | hardLink =>
    rw [dispatch_link (.inl hk), dispatch_link (.inl hk)]
    exact .refl _ s
  | symbolicLink =>
    rw [dispatch_link (.inr hk), dispatch_link (.inr hk)]
    exact .refl _ s
  | other =>
    rw [dispatch_other hk, dispatch_other hk]
    exact .refl _ s

theorem next_sooner (path : Path) (s : Session) :
    x.next path s = y.next path s ∨ x.next path s = .error .interrupted s := by
  refine (checkCancelled_sooner h s).imp (fun he => ?_) bind_of_error
  simp only [next, enforceLimits, h.limits]
  simp only [bind, EStateM.bind, he]

theorem record_sooner (hl : s.files.Leads root base) :
    EndsSooner Session.KeptBy (x.record (pathTo root)) (y.record (pathTo root)) s := by
  cases next_sooner h (pathTo root) s with
  | inl he =>
    rw [record_eq, record_eq]
    refine .bind_of_eq he fun o t hn => ?_
    have ho := (next_ends x hl.ordinary s).of_ok (he.trans hn)
    match o with
    | none => exact .refl _ t
    | some (e, target) =>
      obtain ⟨hb, rfl⟩ := ho
      refine (dispatch_sooner h (hb.files ▸ hl) hb.resolved).bind (fun _ hu => hu) ?_
      exact fun _ _ _ => .refl _ _
  | inr he =>
    refine .interrupted ?_ (record_keeps y hl)
    rw [record_eq]
    exact bind_of_error he

theorem records_sooner (hl : s.files.Leads root base) :
    EndsSooner Session.KeptBy (x.records (pathTo root)) (y.records (pathTo root)) s := by
  induction s using records.induct x (pathTo root) with
  | case1 s t hx ih =>
    have hy := (record_sooner h hl).of_ok hx
    have ⟨e, hc⟩ := (record_ends x hl).of_ok hx
    exact (ih (hc.leads hl)).congr (records_of_next hx) (records_of_next hy)
  | case2 s t hx =>
    have hy := (record_sooner h hl).of_ok hx
    exact .alike ((records_of_end hx).trans (records_of_end hy).symm)
  | case3 s e t hx =>
    cases record_sooner h hl with
    | alike he =>
      have hy := he.symm.trans hx
      exact .alike ((records_of_error hx).trans (records_of_error hy).symm)
    | interrupted hi hk =>
      exact .interrupted (records_of_error hi) (hk.trans (record_keptBy_records y hl))

theorem extract_sooner (source : Source) (destination : Path) (fs : FileSystem) :
    EndsSooner (Grows fun _ _ => True) (x.extract source destination)
      (y.extract source destination) fs := by
  rcases extract_or_begins source destination fs with ⟨e, fs', he⟩ | ⟨names, base, s, hb⟩
  · exact .alike ((he x).trans (he y).symm)
  · cases records_sooner h hb.leads with
    | alike he =>
      refine .alike ?_
      cases hx : x.records (pathTo names) s with
      | ok _ t => exact (hb.extract_of_ok hx).trans (hb.extract_of_ok (he ▸ hx)).symm
      | error e t => exact (hb.extract_of_error hx).trans (hb.extract_of_error (he ▸ hx)).symm
    | interrupted he hk =>
      refine .interrupted (hb.extract_of_error he) ?_
      cases hy : y.records (pathTo names) s with
      | ok _ t =>
        rw [finalState_of_ok (hb.extract_of_ok hy)]
        rwa [finalState_of_ok hy] at hk
      | error e t =>
        rw [finalState_of_error (hb.extract_of_error hy)]
        rwa [finalState_of_error hy] at hk

end Sooner

def Has (source : Source) (fs : FileSystem) (bound : UInt64) (e : Entry) : Prop :=
  ∃ input front es, source.open fs = .ok input ∧ front <+: input.remaining ∧
    Archive.Spans bound front es ∧ e ∈ es

-- All files that are new are entries that the archive has in full.
def WholeFiles (source : Source) (bound : UInt64) (fs fs' : FileSystem) : Prop :=
  ∀ l f, fs.node? l = none → fs'.node? l = some (.file f) →
    ∃ e, Has source fs bound e ∧ e.header.kind = .regular ∧ f = ⟨e.payload, 0o600, fs.clock⟩

theorem WholeFiles.refl (source : Source) (bound : UInt64) (fs : FileSystem) :
    WholeFiles source bound fs fs :=
  fun _ _ hn hf => nomatch hn.symm.trans hf

theorem WholeFiles.of_grows {new : Location → Node → Prop} {fs' : FileSystem} {bound : UInt64}
    (g : Grows new fs fs') (hd : ∀ l node, new l node → node.isDirectory) :
    WholeFiles source bound fs fs' :=
  fun l f hn hf => nomatch hn.symm.trans ((g.file_iff hd l f).mp hf)

theorem Begins.wholeFiles {new : Location → Node → Prop} {fs' : FileSystem}
    (hb : Begins source destination fs names base s) (hc : x.Completed names base es s t)
    (g : Grows new t.files fs') (hd : ∀ l node, new l node → node.isDirectory) :
    WholeFiles source x.limits.componentLength fs fs' := by
  intro l f hn hf
  rcases (hb.file_iff hc g hd l f).mp hf with hf | ⟨e, he, hk, -, hf⟩
  · cases hn.symm.trans hf
  · have ⟨_, front, hr, hs⟩ := hc.spans (Source.joints_of_open hb.opens)
    exact ⟨e, ⟨s.input, front, es, hb.opens, ⟨_, hr.symm⟩, hs, he⟩, hk, hf⟩

def filesAfter (x : Extractor) (source : Source) (destination : Path) (fs : FileSystem) :
    FileSystem :=
  finalState (x.extract source destination) fs

theorem wholeFiles_filesAfter (x : Extractor) (source : Source) (destination : Path)
    (fs : FileSystem) :
    WholeFiles source x.limits.componentLength fs (x.filesAfter source destination fs) := by
  refine Ends.finalState ((extract_ends x source destination fs).imp ?succeeds ?fails)
  case succeeds =>
    intro _ _ ⟨names, base, s, u, t, h, _, ht⟩
    have ⟨n, hp⟩ := h.passes
    have ⟨es, _, hc⟩ := hp.completed h.begins.leads
    have ⟨hf, _⟩ := (record_ends x (hc.leads h.begins.leads)).of_ok h.last
    have g : Grows (fun _ _ => False) u.files u.files := Grows.refl u.files
    rw [ht, hf]
    exact h.begins.wholeFiles hc g nofun
  case fails =>
    intro e fs' h
    cases h with
    | opening | root => exact .refl source _ fs
    | preparing _ ho _ hp =>
      have ⟨g, _⟩ := (Destination.prepare_ends fs ho).of_error hp
      exact .of_grows g fun _ _ h => h.isPart.isDirectory
    | record hb hp hu =>
      have ⟨es, _, hc⟩ := hp.completed hb.leads
      have ⟨g, _⟩ := (record_ends x (hc.leads hb.leads)).of_error hu
      exact hb.wholeFiles hc g fun _ _ ⟨_, _, hw⟩ => hw.isDirectory

-- An extraction that is to stop after `c` bytes ends as one that is never to stop, or it is
-- interrupted. What it leaves is left by that one too, and by all that are to stop later, and there
-- is no part of a file in it.
theorem extract_cancelled (x : Extractor) (source : Source) (destination : Path)
    (fs : FileSystem) {c c' : Nat} (h : c ≤ c') :
    (Extractor.extract { x with cancelAfter := some c } source destination fs =
        Extractor.extract { x with cancelAfter := none } source destination fs ∨
      ∃ fs', Extractor.extract { x with cancelAfter := some c } source destination fs =
        .error .interrupted fs') ∧
    (∀ l node, (filesAfter { x with cancelAfter := some c } source destination fs).node? l =
        some node →
      (filesAfter { x with cancelAfter := some c' } source destination fs).node? l = some node ∧
      (filesAfter { x with cancelAfter := none } source destination fs).node? l = some node) ∧
    WholeFiles source x.limits.componentLength fs
      (filesAfter { x with cancelAfter := some c } source destination fs) := by
  have hnever := extract_sooner (stopsSooner_none x c) source destination fs
  have hlater := extract_sooner (stopsSooner_of_le x h) source destination fs
  refine ⟨?_, fun l node hl => ⟨?_, ?_⟩, wholeFiles_filesAfter _ source destination fs⟩
  · cases hnever with
    | alike he => exact .inl he
    | interrupted he => exact .inr ⟨_, he⟩
  · exact (hlater.final Grows.refl).kept hl
  · exact (hnever.final Grows.refl).kept hl

theorem Completed.delivered_le (hc : x.Completed names base es s t) :
    s.input.delivered + 512 * es.length ≤ t.input.delivered := by
  induction hc with
  | nil => exact Nat.le_refl _
  | cons he _ ih =>
    obtain ⟨b, pad, -, -, -, hi⟩ := he.delivers
    have hd := hi.delivered
    simp only [List.length_append, List.length_cons, b.size_eq] at *
    omega

theorem length_lt_of_extract {c : Nat} {input : Input} {summary : Summary} {fs' : FileSystem}
    (hc : x.cancelAfter = some c) (hi : source.open fs = .ok input)
    (he : Archive.entries? x.limits.componentLength input.remaining = some es)
    (hx : x.extract source destination fs = .ok summary fs') : 512 * es.length < c := by
  obtain ⟨names, base, s, u, t, h, -, -⟩ := (extract_ends x source destination fs).of_ok hx
  have hb := h.begins
  obtain ⟨n, hp⟩ := h.passes
  obtain ⟨es', -, hes⟩ := hp.completed hb.leads
  obtain ⟨-, -, hlast⟩ := (record_ends x (hes.leads hb.leads)).of_ok h.last
  have hj := Source.joints_of_open hb.opens
  cases hb.opens.symm.trans hi
  cases (hes.entries? hj (hlast (hes.joints.trans hj))).symm.trans he
  have hle := hes.delivered_le
  have hlt : u.input.delivered < c := by
    by_contra hstop
    have hcheck : x.checkCancelled u = .error .interrupted u := by
      simp [checkCancelled_eq, hc, Nat.le_of_not_lt hstop]
    cases (bind_of_error hcheck).symm.trans h.last
  omega

theorem extract_cancelled_docs :
    ∃ summary fs₀ fs',
      Extractor.extract {} (.reader (Archive.write [Entry.docs, Entry.nested]) .finished
        Input.plainSchedule) ⟨"out"⟩ (FileSystem.root 0) = .ok summary fs' ∧
      Extractor.extract { cancelAfter := some 600 }
        (.reader (Archive.write [Entry.docs, Entry.nested]) .finished Input.plainSchedule) ⟨"out"⟩
        (FileSystem.root 0) = .error .interrupted fs₀ ∧
      ∀ l node, fs₀.node? l = some node →
        (filesAfter { cancelAfter := some 1600 }
          (.reader (Archive.write [Entry.docs, Entry.nested]) .finished Input.plainSchedule) ⟨"out"⟩
          (FileSystem.root 0)).node? l = some node ∧
        fs'.node? l = some node := by
  generalize hsource : Source.reader (Archive.write [Entry.docs, Entry.nested]) .finished
    Input.plainSchedule = source
  have ⟨summary, fs', h⟩ := extract_docs_nested .finished Input.plainSchedule
  rw [hsource] at h
  have ⟨hends, hkept, _⟩ := extract_cancelled {} source ⟨"out"⟩ (FileSystem.root 0)
    (show 600 ≤ 1600 by decide)
  have hstop : ∃ fs₀, Extractor.extract { cancelAfter := some 600 } source ⟨"out"⟩
      (FileSystem.root 0) = .error .interrupted fs₀ := by
    refine hends.resolve_left fun he => ?_
    subst hsource
    have hlt := length_lt_of_extract rfl rfl Archive.entries?_docs_nested (he.trans h)
    exact absurd hlt (by decide)
  obtain ⟨fs₀, hstop⟩ := hstop
  simp only [filesAfter, finalState_of_error hstop, finalState_of_ok h] at hkept
  exact ⟨summary, fs₀, fs', h, hstop, hkept⟩

end Extractor
end TarGuard
