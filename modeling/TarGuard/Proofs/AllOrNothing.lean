import TarGuard.Proofs.Moves
import TarGuard.Proofs.Plainness

namespace TarGuard

open FileSystem

namespace FileSystem

variable {fs fs' : FileSystem} {purpose : Purpose} {p : Path} {loc l : Location}
  {names : List String} {n : Nat} {f : File} {e : SystemError}

theorem isDirectory_startOf (h : fs.IsDirectory loc) (text : String) :
    fs.IsDirectory (startOf text loc) := by
  unfold startOf
  split
  · exact fs.root_isDirectory
  · exact h

theorem Walks.exists_last (h : Walks fs purpose n loc names l) (hd : fs.IsDirectory loc)
    (hl : ¬ fs.IsDirectory l) :
    ∃ s, names.getLast? = some s ∧ Component.ofPiece? s = some (.name s) := by
  have hname {s : String} (he : s ≠ "") (hh : s ≠ ".") (hu : s ≠ "..") :
      Component.ofPiece? s = some (.name s) := by
    unfold Component.ofPiece?
    split
    · exact absurd rfl he
    · exact absurd rfl hh
    · exact absurd rfl hu
    · rfl
  have hcons {s t : String} {rest : List String} (h : rest.getLast? = some t) :
      (s :: rest).getLast? = some t := by
    rw [List.getLast?_cons, h]
    rfl
  induction h with
  | done => exact absurd hd hl
  | skip _ _ ih => exact (ih hd hl).imp fun _ h => ⟨hcons h.1, h.2⟩
  | up _ ih => exact (ih (isDirectory_tail hd) hl).imp fun _ h => ⟨hcons h.1, h.2⟩
  | enter he _ _ ih => exact (ih he hl).imp fun _ h => ⟨hcons h.1, h.2⟩
  | last he hh hu => exact ⟨_, rfl, hname he hh hu⟩
  | @follow s loc rest n l t ht _ _ _ ih =>
    by_cases hne : rest = []
    case pos =>
      have ⟨he, hh, hu, _⟩ := isFileName_of_node?_cons ht
      exact ⟨s, by rw [hne]; rfl, hname he hh hu⟩
    case neg =>
      obtain ⟨u, hu, hpiece⟩ := ih (isDirectory_startOf hd t) hl
      rw [List.getLast?_append_of_ne_nil _ hne] at hu
      exact ⟨u, hcons hu, hpiece⟩

theorem exists_fileName? (h : fs.linkStatus p = .ok (.file f)) :
    ∃ name, p.fileName? = some name := by
  obtain ⟨loc, hl, hf⟩ := linkStatus_eq_ok_iff.mp h
  have ⟨_, hw⟩ := locate_eq_ok_iff.mp hl
  have hfile : ¬ fs.IsDirectory loc := by simp [IsDirectory, hf, Node.isDirectory]
  obtain ⟨s, hs, hname⟩ :=
    hw.exists_last (isDirectory_startOf fs.current_isDirectory p.text) hfile
  rcases lookupPieces_eq_or p with hp | hp
  · obtain ⟨front, hfront⟩ := List.getLast?_eq_some_iff.mp hs
    exact ⟨s, Path.fileName?_of_words (hp ▸ hfront) hname⟩
  · rw [hp, List.getLast?_concat] at hs
    cases hs
    cases hname

theorem walkFrom_ne {onLink : Location → List String → Except SystemError Location}
    (h : ∀ loc names, onLink loc names ≠ .error .noFileName) (loc : Location)
    (names : List String) : fs.walkFrom purpose onLink loc names ≠ .error .noFileName := by
  induction names generalizing loc with
  | nil => rintro ⟨⟩
  | cons s rest ih =>
    rw [walkFrom]
    split
    case isTrue => exact ih loc
    case isFalse =>
    split
    case isTrue => exact ih loc.tail
    case isFalse =>
    split
    case isTrue => rintro ⟨⟩
    case isFalse =>
    split
    case isTrue => rintro ⟨⟩
    case isFalse =>
    split
    case h_1 => split <;> rintro ⟨⟩
    case h_2 => exact ih (s :: loc)
    case h_3 => split <;> rintro ⟨⟩
    case h_4 =>
      split
      case isTrue => rintro ⟨⟩
      case isFalse => exact h _ _

theorem walk_ne (n : Nat) (loc : Location) (names : List String) :
    fs.walk purpose n loc names ≠ .error .noFileName := by
  induction n generalizing loc names with
  | zero =>
    apply walkFrom_ne
    rintro _ _ ⟨⟩
  | succ n ih => exact walkFrom_ne ih loc names

theorem locate_ne (fs : FileSystem) (purpose : Purpose) (p : Path) :
    fs.locate purpose p ≠ .error .noFileName := by
  rw [locate]
  cases hc : checkText p.text with
  | ok => exact walk_ne _ _ _
  | error e =>
    rintro ⟨⟩
    unfold checkText at hc
    split at hc
    case isTrue => cases hc
    case isFalse => split at hc <;> [skip; split at hc] <;> cases hc

theorem linkStatus_ne (fs : FileSystem) (p : Path) : fs.linkStatus p ≠ .error .noFileName := by
  rw [linkStatus]
  cases hl : fs.locate .linkStatus p with
  | error e =>
    rintro ⟨⟩
    exact fs.locate_ne .linkStatus p hl
  | ok loc =>
    simp only [bind, Except.bind, existing]
    split <;> rintro ⟨⟩

def openNew (fs : FileSystem) (p : Path) : Except SystemError (Location × FileSystem) := do
  let loc ← fs.locate .write p
  match fs.node? loc with
  | some (.file f) =>
    return (loc, fs.put loc (.file { f with content := [], modified := fs.clock }))
  | some _ => throw .isDirectory
  | none =>
    let node := .file ⟨[], defaultFileMode, fs.clock⟩
    if fs.Accepts loc node then return (loc, fs.put loc node) else throw .notFound

theorem put_put {node node' : Node} (h : fs.Accepts loc node')
    (h' : (fs.put loc node).Accepts loc node') :
    (fs.put loc node).put loc node' = fs.put loc node' := by
  refine ext_node? (fun l => ?_) ?_ ?_
  · by_cases hl : l = loc
    · subst hl
      rw [node?_put_self h', node?_put_self h]
    · rw [node?_put_of_ne hl, node?_put_of_ne hl, node?_put_of_ne hl]
  · rw [current_put, current_put, current_put]
  · rw [clock_put, clock_put, clock_put]

theorem accepts_file_iff (f g : File) : fs.Accepts loc (.file f) ↔ fs.Accepts loc (.file g) := by
  cases loc <;> exact Iff.rfl

theorem append_put (mode : UInt32) (modified : Int)
    (h : fs.Accepts loc (.file ⟨[], mode, modified⟩)) (content : List UInt8) :
    (fs.put loc (.file ⟨[], mode, modified⟩)).append loc content =
      fs.put loc (.file ⟨content, mode, fs.clock⟩) := by
  have hf := node?_put_self h
  simp only [append, hf, List.nil_append, clock_put]
  exact put_put ((accepts_file_iff _ _).mp h) (accepts_file hf _)

theorem openNew_ne (fs : FileSystem) (p : Path) : fs.openNew p ≠ .error .noFileName := by
  rw [openNew]
  cases hl : fs.locate .write p with
  | error e =>
    rintro ⟨⟩
    exact fs.locate_ne .write p hl
  | ok loc =>
    simp only [bind, Except.bind]
    split
    · exact nofun
    · exact nofun
    · split <;> exact nofun

theorem write_eq_openNew (fs : FileSystem) (p : Path) (content : List UInt8) :
    fs.write p content = (fs.openNew p).map fun (loc, fs') => fs'.append loc content := by
  simp only [write, openNew]
  cases fs.locate .write p with
  | error e => rfl
  | ok loc =>
    simp only [bind, Except.bind]
    cases hn : fs.node? loc with
    | some node =>
      cases node with
      | file f =>
        exact congrArg Except.ok (append_put f.mode fs.clock (accepts_file hn _) content).symm
      | directory | link => rfl
    | none =>
      have hiff : fs.Accepts loc (.file ⟨content, defaultFileMode, fs.clock⟩) ↔
          fs.Accepts loc (.file ⟨[], defaultFileMode, fs.clock⟩) := accepts_file_iff _ _
      by_cases ha : fs.Accepts loc (.file ⟨[], defaultFileMode, fs.clock⟩)
      case pos =>
        simp only [if_pos ha, if_pos (hiff.mpr ha)]
        exact congrArg Except.ok (append_put defaultFileMode fs.clock ha content).symm
      case neg =>
        simp only [if_neg ha, if_neg (mt hiff.mp ha)]
        rfl

def isFileAt (fs : FileSystem) (p : Path) : Bool :=
  match fs.linkStatus p with
  | .ok (.file _) => true
  | _ => false

structure Writes (loc : Location) (content : List UInt8) (fs fs' : FileSystem) : Prop where
  before : ∀ node, fs.node? loc = some node → ∃ f, node = .file f ∧
    fs'.node? loc = some (.file { f with content := content, modified := fs.clock })
  new : fs.node? loc = none →
    fs'.node? loc = some (.file ⟨content, defaultFileMode, fs.clock⟩)
  others : ∀ l, l ≠ loc → fs'.node? l = fs.node? l
  current : fs'.current = fs.current
  clock : fs'.clock = fs.clock

theorem writes_of_write {content : List UInt8} (h : fs.write p content = .ok fs') :
    ∃ loc, fs.locate .write p = .ok loc ∧ Writes loc content fs fs' := by
  unfold write at h
  cases hl : fs.locate .write p with
  | error e =>
    rw [hl] at h
    cases h
  | ok loc =>
    rw [hl] at h
    simp only [bind, Except.bind] at h
    refine ⟨loc, rfl, ?_⟩
    cases hn : fs.node? loc with
    | some node =>
      rw [hn] at h
      cases node with
      | directory | link => cases h
      | file f =>
        cases h
        refine ⟨fun _ h => ?_, fun h => ?_, fun _ => node?_put_of_ne, current_put, clock_put⟩
        · cases hn.symm.trans h
          exact ⟨f, rfl, node?_put_self (accepts_file hn _)⟩
        · cases hn.symm.trans h
    | none =>
      rw [hn] at h
      simp only at h
      split at h
      case isFalse => cases h
      case isTrue ha =>
        cases h
        refine ⟨fun _ h => ?_, fun _ => ?_, fun _ => node?_put_of_ne, current_put, clock_put⟩
        · cases hn.symm.trans h
        · exact node?_put_self ha

end FileSystem

namespace Packing

structure Picks (fs : FileSystem) (files : List Path) (items : List Item) : Prop where
  found  : ∀ p ∈ files, ∃ node, fs.linkStatus p = .ok node
  stands : ∀ i ∈ items, i.Stands fs
  paths  : items.map (·.path) = files.filter fs.isFileAt

-- The entry is the file as it stands, under its last name. A time before 1970 is none.
structure Item.IsStoredAs (i : Item) (e : Entry) : Prop where
  name     : e.header.name = i.name
  leading  : e.header.leading = ""
  linkName : e.header.linkName = ""
  mode     : e.header.mode = i.file.mode &&& 0o7777
  size     : e.header.size = .ofNat i.file.content.length
  modified : e.header.modified = .ofNat i.file.modified.toNat
  checksum : e.header.checksum = 0
  flag     : e.header.flag = '0'.toUInt8
  payload  : e.payload = i.file.content

def FailsAt (fs : FileSystem) (files : List Path) (e : SystemError) : Prop :=
  ∃ before p after, files = before ++ p :: after ∧
    (∀ q ∈ before, ∃ node, fs.linkStatus q = .ok node) ∧ fs.linkStatus p = .error e

variable {fs fs' : FileSystem} {archive p : Path} {files : List Path} {items : List Item}
  {node : Node} {f : File} {e : SystemError} {compress : List UInt8 → List UInt8}
  {decoder : Input.Decoder}

theorem Picks.length (h : Picks fs files items) : items.length = files.countP fs.isFileAt := by
  rw [List.countP_eq_length_filter, ← h.paths, List.length_map]

theorem isStoredAs_entry (i : Item) : i.IsStoredAs i.entry :=
  ⟨rfl, rfl, rfl, rfl, rfl, rfl, rfl, rfl, rfl⟩

theorem Item.IsStoredAs.eq {i : Item} {e e' : Entry} (h : i.IsStoredAs e)
    (h' : i.IsStoredAs e') : e = e' := by
  have hheader : e.header = e'.header :=
    Header.ext (h.name.trans h'.name.symm) (h.leading.trans h'.leading.symm)
      (h.linkName.trans h'.linkName.symm) (h.mode.trans h'.mode.symm) (h.size.trans h'.size.symm)
      (h.modified.trans h'.modified.symm) (h.checksum.trans h'.checksum.symm)
      (h.flag.trans h'.flag.symm)
  cases e
  exact congrArg₂ Entry.mk hheader (h.payload.trans h'.payload.symm)

theorem forall₂_isStoredAs (items : List Item) :
    List.Forall₂ Item.IsStoredAs items (items.map (·.entry)) :=
  List.forall₂_map_right_iff.mpr (List.forall₂_same.mpr fun i _ => isStoredAs_entry i)

theorem entryOfPath?_of_error (h : fs.linkStatus p = .error e) :
    entryOfPath? fs p = .error e := by
  rw [entryOfPath?, h]
  rfl

theorem entryOfPath?_of_ok (h : fs.linkStatus p = .ok node) :
    ∃ o : Option Item, entryOfPath? fs p = .ok (o.map (·.entry)) ∧ (∀ i ∈ o, i.Stands fs) ∧
      o.toList.map (·.path) = [p].filter fs.isFileAt := by
  cases node with
  | file f =>
    have ⟨name, hn⟩ := exists_fileName? h
    have hs : Item.Stands ⟨p, name, f⟩ fs := ⟨h, hn⟩
    refine ⟨some ⟨p, name, f⟩, hs.entryOfPath?, ?_, ?_⟩
    · rintro _ ⟨⟩
      exact hs
    · simp [isFileAt, h]
  | directory | link =>
    refine ⟨none, ?_, nofun, ?_⟩
    · rw [entryOfPath?, h]
      rfl
    · simp [isFileAt, h]

theorem mapM_entryOfPath?_cases (fs : FileSystem) (files : List Path) :
    (∃ found items, files.mapM (entryOfPath? fs) = .ok found ∧ Picks fs files items ∧
      found.filterMap id = items.map (·.entry)) ∨
    ∃ e, FailsAt fs files e ∧ files.mapM (entryOfPath? fs) = .error e := by
  induction files with
  | nil => exact .inl ⟨[], [], rfl, ⟨nofun, nofun, rfl⟩, rfl⟩
  | cons p files ih =>
    cases hp : fs.linkStatus p with
    | error e =>
      refine .inr ⟨e, ⟨[], p, files, rfl, nofun, hp⟩, ?_⟩
      rw [List.mapM_cons, entryOfPath?_of_error hp]
      rfl
    | ok node =>
      obtain ⟨o, ho, hstands, hpath⟩ := entryOfPath?_of_ok hp
      rcases ih with ⟨found, items, hm, hpicks, he⟩ | ⟨e, ⟨before, q, after, rfl, hb, hq⟩, hm⟩
      case inl =>
        refine .inl ⟨o.map (·.entry) :: found, o.toList ++ items, ?_, ⟨?_, ?_, ?_⟩, ?_⟩
        · rw [List.mapM_cons, ho, hm]
          rfl
        · exact List.forall_mem_cons.mpr ⟨⟨node, hp⟩, hpicks.found⟩
        · refine List.forall_mem_append.mpr ⟨fun i hi => ?_, hpicks.stands⟩
          exact hstands i (Option.mem_toList.mp hi)
        · rw [List.map_append, hpath, hpicks.paths, ← List.filter_append, List.singleton_append]
        · cases o <;> simp [← he]
      case inr =>
        refine .inr ⟨e, ⟨p :: before, q, after, rfl, ?_, hq⟩, ?_⟩
        · exact List.forall_mem_cons.mpr ⟨⟨node, hp⟩, hb⟩
        · rw [List.mapM_cons, ho, hm]
          rfl

def packing (archive : Path) (files : List Path)
    (compress : List UInt8 → List UInt8 := Gzip.store) : EStateM SystemError FileSystem Nat := do
  let entries := (← files.mapM fun p => do require (entryOfPath? (← get) p)).filterMap id
  let (loc, opened) ← require ((← get).openNew archive)
  set opened
  modify fun fs => fs.append loc (archiveContent archive entries compress)
  return entries.length

theorem mapM_require (fs : FileSystem) (files : List Path) :
    (files.mapM fun p => do require (entryOfPath? (← get) p) :
      EStateM SystemError FileSystem (List (Option Entry))) fs =
      match files.mapM (entryOfPath? fs) with
      | .ok found => .ok found fs
      | .error e => .error e fs := by
  have hstep (p : Path) : (do require (entryOfPath? (← get) p) :
      EStateM SystemError FileSystem (Option Entry)) fs =
      (require (entryOfPath? fs p) : EStateM SystemError FileSystem (Option Entry)) fs := rfl
  induction files with
  | nil => rfl
  | cons p files ih =>
    rw [List.mapM_cons, List.mapM_cons]
    cases ho : entryOfPath? fs p with
    | error e =>
      rw [bind_of_error ((hstep p).trans (by rw [ho]; rfl))]
      rfl
    | ok o =>
      rw [bind_of_ok ((hstep p).trans (by rw [ho]; rfl))]
      cases hm : files.mapM (entryOfPath? fs) with
      | error e =>
        rw [hm] at ih
        rw [bind_of_error ih]
        rfl
      | ok found =>
        rw [hm] at ih
        rw [bind_of_ok ih]
        rfl

-- Step by step the same is done as by packing in one go, and a failure leaves everything as it was.
theorem packing_eq (fs : FileSystem) (archive : Path) (files : List Path)
    (compress : List UInt8 → List UInt8) :
    packing archive files compress fs =
      match pack fs archive files compress with
      | .ok (n, fs') => .ok n fs'
      | .error e => .error e fs := by
  have hread := mapM_require fs files
  rw [packing, pack]
  cases hm : files.mapM (entryOfPath? fs) with
  | error e =>
    rw [hm] at hread
    rw [bind_of_error hread]
    rfl
  | ok found =>
    rw [hm] at hread
    rw [bind_of_ok hread]
    have hget {α : Type} (g : FileSystem → EStateM SystemError FileSystem α) :
        (get >>= g) fs = g fs fs := rfl
    rw [hget]
    simp only [write_eq_openNew]
    cases ho : fs.openNew archive with
    | error e => rfl
    | ok opened => rfl

-- Packing does all or nothing. If it succeeds the archive is written, wherever its path leads, and
-- nothing else changes. In it are the files among the paths, in their order, as they were before,
-- even if the archive is one of them. If it fails nothing has changed at all, and either a path
-- could not be looked up, or the archive not opened. No path lacks a file name.
theorem packing_ends (hc : ∀ bytes, decoder.Finds (compress bytes) bytes .finished)
    (fs : FileSystem) (archive : Path) (files : List Path) :
    (packing archive files compress fs =
      match pack fs archive files compress with
      | .ok (n, fs') => .ok n fs'
      | .error e => .error e fs) ∧
    Ends (packing archive files compress) fs
      (fun n fs' => ∃ items entries loc content, Picks fs files items ∧
        n = files.countP fs.isFileAt ∧ List.Forall₂ Item.IsStoredAs items entries ∧
        fs.locate .write archive = .ok loc ∧ Writes loc content fs fs' ∧
        fs'.read archive = .ok content ∧ content = archiveContent archive entries compress ∧
        decoder.Finds content (Archive.write entries) .finished)
      (fun e fs' => fs' = fs ∧ e ≠ .noFileName ∧
        (FailsAt fs files e ∨
          (∃ items, Picks fs files items) ∧ fs.openNew archive = .error e)) := by
  refine ⟨packing_eq fs archive files compress, ?_⟩
  rw [Ends, packing_eq, pack]
  rcases mapM_entryOfPath?_cases fs files with ⟨found, items, hm, hpicks, hfound⟩ | ⟨e, hfails, hm⟩
  case inr =>
    rw [hm]
    refine ⟨rfl, ?_, .inl hfails⟩
    rintro rfl
    obtain ⟨_, p, _, _, _, hp⟩ := hfails
    exact fs.linkStatus_ne p hp
  case inl =>
    have hwrite :=
      write_eq_openNew fs archive (archiveContent archive (items.map (·.entry)) compress)
    rw [hm]
    simp only [bind, Except.bind, hfound]
    cases ho : fs.openNew archive with
    | error e =>
      rw [ho] at hwrite
      rw [hwrite]
      refine ⟨rfl, ?_, .inr ⟨⟨items, hpicks⟩, rfl⟩⟩
      rintro rfl
      exact fs.openNew_ne archive ho
    | ok opened =>
      rw [ho] at hwrite
      obtain ⟨loc, hl, hw⟩ := writes_of_write hwrite
      rw [hwrite]
      refine ⟨items, _, loc, _, hpicks, ?_, forall₂_isStoredAs items, hl, hw,
        read_of_write hwrite, rfl, finds_archiveContent hc archive _⟩
      rw [List.length_map, hpicks.length]

def single : FileSystem :=
  (FileSystem.root 0).put ["a.tar"] (.file ⟨[42], 0o644, 0⟩)

-- A file is packed into itself, and then it contains what it was. With a slash behind its name it
-- cannot be packed, and then it is left as it is.
theorem packing_single :
    (∃ fs' content, packing ⟨"a.tar"⟩ [⟨"."⟩, ⟨"a.tar"⟩] Gzip.store single = .ok 1 fs' ∧
      fs'.read ⟨"a.tar"⟩ = .ok content ∧ Input.Decoder.Finds Input.unpack content
        (Archive.write [⟨{ name := "a.tar", mode := 0o644, size := 1 }, [42]⟩]) .finished) ∧
    ∃ e, packing ⟨"a.tar"⟩ [⟨"a.tar"⟩, ⟨"a.tar/"⟩] Gzip.store single = .error e single := by
  have hends := packing_ends Input.Decoder.finds_unpack_store single ⟨"a.tar"⟩
  have hfile : single.linkStatus ⟨"a.tar"⟩ = .ok (.file ⟨[42], 0o644, 0⟩) := rfl
  constructor
  case left =>
    have ⟨_, hends⟩ := hends [⟨"."⟩, ⟨"a.tar"⟩]
    cases hx : packing ⟨"a.tar"⟩ [⟨"."⟩, ⟨"a.tar"⟩] Gzip.store single with
    | error e fs' =>
      have hfound : ∀ p ∈ [(⟨"."⟩ : Path), ⟨"a.tar"⟩], ∃ node, single.linkStatus p = .ok node :=
        List.forall_mem_cons.mpr ⟨⟨.directory 0o755, rfl⟩, List.forall_mem_singleton.mpr ⟨_, hfile⟩⟩
      obtain ⟨-, -, ⟨_, p, _, hp, -, he⟩ | ⟨-, hopen⟩⟩ := hends.of_error hx
      · obtain ⟨_, hnode⟩ := hfound p (hp ▸ List.mem_append_right _ List.mem_cons_self)
        cases he.symm.trans hnode
      · cases hopen
    | ok n fs' =>
      obtain ⟨items, entries, _, content, hpicks, rfl, hstored, -, -, hread, -, hfinds⟩ :=
        hends.of_ok hx
      have hpaths : items.map (·.path) = [⟨"a.tar"⟩] := hpicks.paths
      obtain ⟨i, rfl, hi⟩ := List.map_eq_singleton_iff.mp hpaths
      obtain ⟨hnode, hname⟩ := hpicks.stands i List.mem_cons_self
      rw [hi] at hnode hname
      have hname : i.name = "a.tar" := (Option.some.inj hname).symm
      have hfile : i.file = ⟨[42], 0o644, 0⟩ :=
        Node.file.inj (Except.ok.inj (hnode.symm.trans hfile))
      have hi : i.IsStoredAs ⟨{ name := "a.tar", mode := 0o644, size := 1 }, [42]⟩ :=
        ⟨hname.symm, rfl, rfl, by rw [hfile]; decide, by rw [hfile]; rfl, by rw [hfile]; rfl, rfl,
          rfl, by rw [hfile]⟩
      cases hstored with
      | cons he hnil =>
        cases hnil
        cases he.eq hi
        exact ⟨fs', content, rfl, hread, hfinds⟩
  case right =>
    have ⟨_, hends⟩ := hends [⟨"a.tar"⟩, ⟨"a.tar/"⟩]
    cases hx : packing ⟨"a.tar"⟩ [⟨"a.tar"⟩, ⟨"a.tar/"⟩] Gzip.store single with
    | ok n fs' =>
      obtain ⟨items, _, _, _, hpicks, -⟩ := hends.of_ok hx
      obtain ⟨_, hslash⟩ := hpicks.found ⟨"a.tar/"⟩ (by decide)
      cases hslash
    | error e fs' =>
      obtain ⟨rfl, -⟩ := hends.of_error hx
      exact ⟨e, rfl⟩

end Packing

end TarGuard
