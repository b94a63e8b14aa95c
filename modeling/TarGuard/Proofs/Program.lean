import TarGuard.CommandLine.Run
import TarGuard.Proofs.Consistency
import TarGuard.Proofs.Executable

namespace TarGuard

open FileSystem EntryPath

namespace FileSystem

variable {fs : FileSystem} {loc : Location} {node : Node}

theorem allOrdinary_of_node? (h : fs.node? loc = some node) : AllOrdinary loc :=
  fun s hs => isOrdinary_of_isFileName (isFileName_of_mem h s hs)

theorem allOrdinary_current (fs : FileSystem) : AllOrdinary fs.current :=
  have ⟨_, hm⟩ := isDirectory_iff.mp fs.current_isDirectory
  allOrdinary_of_node? hm

theorem locate_foldl_join_of_file {p : Path} {base : Location} {names : List String} {f : File}
    (hb : fs.locate .status p = .ok base) (hd : fs.IsDirectory base) (ho : AllOrdinary names)
    (hne : names ≠ []) (hf : fs.node? (names.reverse ++ base) = some (.file f))
    (hs : fs.locate .status (names.foldl (fun q s => q.join ⟨s⟩) p) = .ok loc) :
    fs.locate .linkStatus (names.foldl (fun q s => q.join ⟨s⟩) p) =
      .ok (names.reverse ++ base) := by
  have ⟨hc, _⟩ := locate_eq_ok_iff.mp hs
  have ⟨m, hm⟩ := exists_locate_foldl_join hb hd ho hne hc
  rw [hm]
  exact walk_of_node? ho rfl hf nofun

end FileSystem

theorem Destination.root_eq_ok_iff {fs : FileSystem} {destination root : Path} :
    Destination.root fs destination = .ok root ↔
      ∃ given, fs.absolute destination = some given ∧ given.normalize = root := by
  rw [Destination.root]
  cases fs.absolute destination <;> simp

namespace CommandLine

variable {limits : Limits} {interrupted : Bool} {directory given target : Path} {program : String}
  {done : Outcome} {fs fs' : FileSystem} {loc : Location} {names : List String} {f : File}

-- The command succeeds. All that it has changed in a file system is that one file may be read,
-- written and executed by its owner, and by nobody else.
structure Outcome.Prepares (o : Outcome) (interrupted : Bool) (fs : FileSystem) (loc : Location) :
    Prop where
  exitCode : o.exitCode interrupted = 0
  permits  : Permits Executable.ownerBits loc fs o.files
  mode     : ∃ f, o.files.node? loc = some (.file f) ∧ f.mode = 0o700

theorem Outcome.failure_of_exitCode {o : Outcome} (h : o.exitCode interrupted = 0) :
    o.failure = none := by
  unfold exitCode at h
  split at h
  · assumption
  · cases interrupted <;> cases h

theorem markProgram_of_ok (ha : done.files.absolute directory = some given)
    (hm : Executable.mark limits given program done.files = .ok (target, fs')) :
    markProgram limits directory program done =
      { done with files := fs', output := done.output ++ executableText target } := by
  simp only [markProgram, ha, hm]

theorem markProgram_of_error {e : ExtractError} (done : Outcome)
    (ha : done.files.absolute directory = some given)
    (hm : Executable.mark limits given program done.files = .error e) :
    markProgram limits directory program done =
      { done with failure := some (explain ("Failed to prepare " ++ program) e.message) } := by
  simp only [markProgram, ha, hm]

theorem of_failure_markProgram (ha : done.files.absolute directory = some given)
    (h : (markProgram limits directory program done).failure = none) :
    ∃ target fs', Executable.mark limits given program done.files = .ok (target, fs') := by
  cases hm : Executable.mark limits given program done.files with
  | ok result => exact ⟨result.1, result.2, rfl⟩
  | error e => simp [markProgram_of_error done ha hm] at h

theorem markProgram_prepares_iff (done : Outcome) (interrupted : Bool) (hdone : done.failure = none)
    (ha : done.files.absolute directory = some given)
    (hc : components limits program = .ok names)
    (hf : done.files.node? loc = some (.file f)) (hmode : f.mode = OutputFile.mode) :
    (markProgram limits directory program done).Prepares interrupted done.files loc ↔
      done.files.locate .linkStatus (names.foldl (fun q s => q.join ⟨s⟩) given) = .ok loc := by
  have hr := resolve_eq_joined hc given
  have hbits : f.mode ||| Executable.ownerBits = 0o700 := by
    rw [hmode]
    decide
  constructor
  case mpr =>
    intro hl
    have hp : Permits Executable.ownerBits loc done.files _ := .put hf
    rw [markProgram_of_ok ha (Executable.mark_of_file hr hl hf)]
    exact ⟨if_pos hdone, hp, _, node?_put_self (accepts_file hf _), hbits⟩
  case mp =>
    intro ⟨hexit, _, g, hg, hgmode⟩
    have ⟨target, fs', hm⟩ := of_failure_markProgram ha (Outcome.failure_of_exitCode hexit)
    rw [markProgram_of_ok ha hm] at hg
    obtain ⟨hr', loc', hl, hp⟩ := Executable.of_mark hm
    cases hr.symm.trans hr'
    -- Elsewhere the mode would not have changed.
    by_cases he : loc = loc'
    case pos => rw [he, hl]
    case neg =>
      cases (hp.others loc he).symm.trans hg |>.symm.trans hf
      exact absurd (hmode.symm.trans hgmode) (by decide)

end CommandLine

namespace Extractor

variable {x : Extractor} {source : Source} {destination given : Path} {fs : FileSystem}
  {names : List String} {base : Location} {s t : Session} {es : List Entry} {e : Entry}

theorem Begins.locate_file (hb : Begins source destination fs names base s)
    (hc : x.Completed names base es s t) (he : e ∈ es) (hk : e.header.kind = .regular)
    (ha : fs.absolute destination = some given) (hup : .up ∉ destination.components)
    (hslash : ['/', '/'] <+: destination.text.toList →
      ['/', '/', '/'] <+: destination.text.toList) :
    t.files.locate .linkStatus ((split e.header.fullPath).foldl (fun q s => q.join ⟨s⟩) given) =
      .ok (e.header.trail ++ base) := by
  have hl := hc.leads hb.leads
  have ⟨_, haccepted⟩ := accepted_of_components (eq_foldl_of_resolve (hc.resolved he)).1
  have ho : AllOrdinary (split e.header.fullPath) := haccepted.allOrdinary_split
  obtain ⟨_, ha', hnames⟩ := Destination.root_eq_ok_iff.mp hb.root
  cases ha.symm.trans ha'
  have htarget := Path.foldl_join_of_absoluteIn (allOrdinary_current fs) ha hup hslash
    hl.ordinary hnames ho (split_ne_nil _)
  have hlocate := hc.located he (.inr hk)
  rw [htarget]
  rw [Header.trail, trail, ← foldl_join_pathTo hl.ordinary ho] at hlocate ⊢
  exact locate_foldl_join_of_file hl.locate hl.isDirectory ho (split_ne_nil _) (hc.file he hk)
    hlocate

end Extractor

namespace CommandLine

open Extractor

def extractor (limits : Limits) (interrupted : Bool) : Extractor :=
  { limits := limits, cancelAfter := if interrupted then some 0 else none }

variable {lookup : String → Option String} {limits : Limits} {interrupted : Bool}
  {archive directory : Path} {program : String} {fs fs₁ : FileSystem} {summary : Summary}
  {input : Input} {es : List Entry} {e : Entry}

theorem runWithEnvironment_extract (hl : Limits.ofEnvironment lookup = .ok limits)
    (hx : (extractor limits interrupted).runFile archive directory fs = .ok summary fs₁) :
    runWithEnvironment lookup interrupted fs (.extract archive directory (some program)) =
      markProgram limits directory program
        { files := fs₁, output := summaryText directory summary } := by
  rw [extractor] at hx
  simp only [runWithEnvironment, hl, Command.run, hx]

-- A file that was just extracted, and whose path is that of the program, becomes executable, and
-- nothing else changes, exactly if it is found in the destination as that was given. It is found
-- there if there are no `..` in the destination, nor just two slashes at its start.
theorem extract_prepares (lookup : String → Option String) (interrupted : Bool) (program : String)
    (hl : Limits.ofEnvironment lookup = .ok limits)
    (hx : (extractor limits interrupted).runFile archive directory fs = .ok summary fs₁)
    (hi : Input.openFile fs archive = .ok input)
    (hes : Archive.entries? limits.componentLength input.remaining = some es)
    (he : e ∈ es) (hk : e.header.kind = .regular)
    (hc : components limits program = components limits e.header.fullPath) :
    ∃ given names base, fs₁.absolute directory = some given ∧
      Destination.root fs directory = .ok (pathTo names) ∧
      fs₁.locate .status (pathTo names) = .ok base ∧
      fs.node? (e.header.trail ++ base) = none ∧
      fs₁.node? (e.header.trail ++ base) = some (.file ⟨e.payload, 0o600, fs.clock⟩) ∧
      let outcome :=
        runWithEnvironment lookup interrupted fs (.extract archive directory (some program))
      (outcome.Prepares interrupted fs₁ (e.header.trail ++ base) ↔
        fs₁.locate .linkStatus ((split program).foldl (fun q s => q.join ⟨s⟩) given) =
          .ok (e.header.trail ++ base)) ∧
      (.up ∉ directory.components →
        (['/', '/'] <+: directory.text.toList → ['/', '/', '/'] <+: directory.text.toList) →
        outcome.Prepares interrupted fs₁ (e.header.trail ++ base)) := by
  rw [runWithEnvironment_extract hl hx]
  have hextract : (extractor limits interrupted).extract (.file archive) directory fs =
      .ok summary fs₁ := hx
  have ⟨names, base, s, es', t, hb, hh, hcs, hsum, hfs⟩ := extract_completed hextract
  subst hfs
  cases hi.symm.trans hb.opens
  cases hes.symm.trans hh.entries?
  -- The working directory is the same after the extraction, and so is the directory as given.
  have hcurrent : t.files.current = fs.current := hcs.grows.current.trans hb.grows.current
  have hclock : s.files.clock = fs.clock := hb.grows.clock
  obtain ⟨given, ha, _⟩ := Destination.root_eq_ok_iff.mp hb.root
  have ha₁ : t.files.absolute directory = some given := by rw [absolute, hcurrent, ← ha, absolute]
  have hfile := hclock ▸ hcs.file he hk
  have hce := (eq_foldl_of_resolve (hcs.resolved he)).1
  obtain ⟨hsplit, _⟩ := accepted_of_components (hc.trans hce)
  have hiff := markProgram_prepares_iff
    { files := t.files, output := summaryText directory summary } interrupted rfl ha₁
    (hc.trans hce) hfile rfl
  refine ⟨given, names, base, ha₁, hb.root, (hcs.leads hb.leads).locate,
    hb.grows.absent (hcs.fresh he hk), hfile, ?_, fun hup hslash => ?_⟩
  · rw [← hsplit]
    exact hiff
  · exact hiff.mpr (hb.locate_file hcs he hk ha hup hslash)

theorem extract_prepares_nested :
    ∃ summary fs₁, (extractor {} false).runFile (pathTo ["a.tar"]) ⟨"out"⟩
        (FileSystem.tar [Entry.docs, Entry.nested]) = .ok summary fs₁ ∧
      ∃ base, (runWithEnvironment (fun _ => none) false (FileSystem.tar [Entry.docs, Entry.nested])
        (.extract (pathTo ["a.tar"]) ⟨"out"⟩ (some "docs/nested"))).Prepares false fs₁
          (Entry.nested.header.trail ++ base) := by
  have hs := Entry.storable_docs_nested
  have ⟨summary, fs₁, hx⟩ := exists_extract_tar ⟨"out"⟩ rfl
  have ⟨given, names, base, _, _, _, _, _, _, hp⟩ := extract_prepares (fun _ => none) false
    "docs/nested" rfl hx (Input.openFile_tar hs) Archive.entries?_docs_nested
    (List.mem_cons_of_mem _ List.mem_cons_self) rfl rfl
  rw [Entry.trail_written] at hp
  exact ⟨summary, fs₁, hx, base, hp (by decide) (by decide)⟩

theorem markProgram_below_file {f : File} (hf : fs.node? ["a.tar"] = some (.file f))
    (hc : fs.current = []) (output : String) :
    markProgram {} ⟨"a.tar/../out"⟩ "docs/nested" { files := fs, output := output } =
      { files := fs
        output := output
        failure := some "Failed to prepare docs/nested: Failed to open TGZ file" } := by
  have hr := Purpose.linkStatus.not_refusesSlash rfl
  have ha : fs.absolute ⟨"a.tar/../out"⟩ = some ⟨"/a.tar/../out"⟩ := by
    rw [absolute, hc]
    rfl
  have hnames : lookupPieces "/a.tar/../out/docs/nested" =
      ["a.tar", "..", "out", "docs", "nested"] := by decide
  have htext : checkText "/a.tar/../out/docs/nested" = .ok () := by decide
  have hlocate : fs.locate .linkStatus ⟨"/a.tar/../out/docs/nested"⟩ = .error .notDirectory := by
    rw [locate, htext, hnames]
    exact walk_file hf (hr _) (List.cons_ne_nil _ _)
  have hl : fs.linkStatus ⟨"/a.tar/../out/docs/nested"⟩ = .error .notDirectory := by
    rw [linkStatus, hlocate]
    rfl
  have hm : Executable.mark {} ⟨"/a.tar/../out"⟩ "docs/nested" fs = .error .openFailed :=
    Executable.mark_of_error rfl hl
  have hfailure : explain ("Failed to prepare " ++ "docs/nested") ExtractError.openFailed.message =
      "Failed to prepare docs/nested: Failed to open TGZ file" := by decide
  rw [markProgram_of_error { files := fs, output := output } ha hm, hfailure]

-- What stands before `..` is taken back for the extraction, but not to look for the program.
theorem extract_prepares_nothing :
    ∃ summary fs₁, (extractor {} false).runFile (pathTo ["a.tar"]) ⟨"a.tar/../out"⟩
        (FileSystem.tar [Entry.docs, Entry.nested]) = .ok summary fs₁ ∧
      (∃ base, fs₁.node? (Entry.nested.header.trail ++ base) =
        some (.file ⟨Entry.nested.payload, 0o600, 0⟩)) ∧
      runWithEnvironment (fun _ => none) false (FileSystem.tar [Entry.docs, Entry.nested])
          (.extract (pathTo ["a.tar"]) ⟨"a.tar/../out"⟩ (some "docs/nested")) =
        { files := fs₁
          output := summaryText ⟨"a.tar/../out"⟩ summary
          failure := some "Failed to prepare docs/nested: Failed to open TGZ file" } := by
  have ⟨summary, fs₁, hx⟩ := exists_extract_tar ⟨"a.tar/../out"⟩ rfl
  have hrun : (extractor {} false).runFile (pathTo ["a.tar"]) ⟨"a.tar/../out"⟩
      (FileSystem.tar [Entry.docs, Entry.nested]) = .ok summary fs₁ := hx
  have ⟨names, base, s, es, t, hb, hh, hc, _, hfs⟩ := extract_completed hx
  subst hfs
  have hinput : s.input = .ofBytes (Archive.write [Entry.docs, Entry.nested]) .finished [] :=
    Except.ok.inj (hb.opens.symm.trans (Input.openFile_tar Entry.storable_docs_nested))
  have hes := hinput ▸ hh.entries?
  have he : Entry.nested.written ∈ es := by
    rw [← Option.some.inj (Archive.entries?_docs_nested.symm.trans hes)]
    exact List.mem_cons_of_mem _ List.mem_cons_self
  have hclock : s.files.clock = 0 := hb.grows.clock
  have hfile := hc.file he ((Entry.kind_written _).trans rfl)
  rw [Entry.trail_written, hclock] at hfile
  have htar := hc.grows.kept (hb.grows.kept (OutputFile.isFree_tar.node?_holding _))
  have hcurrent : t.files.current = [] := hc.grows.current.trans hb.grows.current
  refine ⟨summary, t.files, hrun, ⟨base, hfile⟩, ?_⟩
  exact (runWithEnvironment_extract rfl hrun).trans (markProgram_below_file htar hcurrent _)

end CommandLine
end TarGuard
