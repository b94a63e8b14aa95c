import TarGuard.Extraction.Executable
import TarGuard.Proofs.Calls
import TarGuard.Proofs.Ends
import TarGuard.Proofs.Joining

namespace TarGuard

open FileSystem EntryPath

namespace FileSystem

variable {fs fs' : FileSystem} {p : Path} {loc : Location} {f : File} {node : Node}

theorem changeMode_file {mode : UInt32} (h : fs.locate .status p = .ok loc)
    (hn : fs.node? loc = some (.file f)) :
    fs.changeMode p mode = .ok (fs.put loc (.file { f with mode := mode })) := by
  simp only [changeMode, h, bind, Except.bind, hn]
  rfl

structure Permits (bits : UInt32) (loc : Location) (fs fs' : FileSystem) : Prop where
  file : ∃ f, fs.node? loc = some (.file f) ∧
    fs'.node? loc = some (.file { f with mode := f.mode ||| bits })
  others : ∀ l, l ≠ loc → fs'.node? l = fs.node? l
  current : fs'.current = fs.current
  clock : fs'.clock = fs.clock

theorem Permits.put {bits : UInt32} (h : fs.node? loc = some (.file f)) :
    Permits bits loc fs (fs.put loc (.file { f with mode := f.mode ||| bits })) where
  file := ⟨f, h, node?_put_self (accepts_file h _)⟩
  others _ hl := node?_put_of_ne hl
  current := current_put
  clock := clock_put

end FileSystem

namespace Executable

variable {limits : Limits} {root target : Path} {relative : String} {fs fs' : FileSystem}
  {loc base : Location} {f : File}

theorem mark_of_file (hr : resolve limits root relative = .ok target)
    (hl : fs.locate .linkStatus target = .ok loc) (hf : fs.node? loc = some (.file f)) :
    mark limits root relative fs =
      .ok (target, fs.put loc (.file { f with mode := f.mode ||| ownerBits })) := by
  have hs := locate_status_of_linkStatus hl (by simp [hf])
  simp only [mark, hr, bind, Except.bind, linkStatus_eq_ok_iff.mpr ⟨loc, hl, hf⟩,
    changeMode_file hs hf]
  rfl

theorem mark_of_error {e : SystemError} (hr : resolve limits root relative = .ok target)
    (hl : fs.linkStatus target = .error e) :
    mark limits root relative fs = .error .openFailed := by
  simp only [mark, hr, bind, Except.bind, hl]
  rfl

theorem of_mark (h : mark limits root relative fs = .ok (target, fs')) :
    resolve limits root relative = .ok target ∧
      ∃ loc, fs.locate .linkStatus target = .ok loc ∧ Permits ownerBits loc fs fs' := by
  unfold mark at h
  cases hr : resolve limits root relative with
  | error e => simp [hr, bind, Except.bind] at h
  | ok target' =>
    cases hn : fs.linkStatus target' with
    | error e => simp [hr, hn, bind, Except.bind] at h
    | ok node =>
      cases node with
      | directory => simp [hr, hn, bind, Except.bind] at h
      | link => simp [hr, hn, bind, Except.bind] at h
      | file f =>
        obtain ⟨loc, hl, hf⟩ := linkStatus_eq_ok_iff.mp hn
        have hs := locate_status_of_linkStatus hl (by simp [hf])
        simp only [hr, hn, bind, Except.bind, changeMode_file hs hf] at h
        cases h
        exact ⟨rfl, loc, hl, .put hf⟩

def linked : FileSystem :=
  (FileSystem.root 0).put ["r"] (.directory 0o755) |>.put ["out"] (.directory 0o755)
    |>.put ["f", "out"] (.file ⟨[], 0o600, 0⟩) |>.put ["l", "r"] (.link "../out")

theorem mark_linked (hr : resolve {} root relative = .ok target)
    (hl : linked.locate .linkStatus target = .ok ["f", "out"]) :
    ∃ fs', mark {} root relative linked = .ok (target, fs') ∧
      Permits ownerBits ["f", "out"] linked fs' :=
  have hf : linked.node? ["f", "out"] = some (.file ⟨[], 0o600, 0⟩) := rfl
  ⟨_, mark_of_file hr hl hf, .put hf⟩

def marking (limits : Limits) (root : Path) (relative : String) :
    EStateM ExtractError FileSystem Path := fun fs =>
  match mark limits root relative fs with
  | .ok (target, fs') => .ok target fs'
  | .error e => .error e fs

theorem locate_eq_iff {names : List String} (hb : fs.locate .status root = .ok base)
    (hd : fs.IsDirectory base) (ho : AllOrdinary names) (hne : names ≠ [])
    (hl : fs.locate .linkStatus (names.foldl (fun q s => q.join ⟨s⟩) root) = .ok loc)
    (hf : fs.node? loc = some (.file f)) :
    loc = names.reverse ++ base ↔ fs.AvoidsLinks base names := by
  constructor
  case mp =>
    rintro rfl q t hq hne ht
    have hs : q ++ base <:+ names.reverse ++ base := List.suffix_append_self_iff.mpr hq
    have hdir := isDirectory_of_suffix hf hs fun he => hne (List.append_cancel_right he)
    simp [IsDirectory, ht, Node.isDirectory] at hdir
  case mpr =>
    intro hp
    have ⟨hc, _⟩ := locate_eq_ok_iff.mp hl
    have ⟨m, hm⟩ := exists_locate_foldl_join hb hd ho hne hc
    rw [hm, walk_eq_ok_iff] at hl
    exact hl.eq_of_avoidsLinks ho hp

-- Marking adds the rights of the owner to the mode of a regular file. If no such file is found it
-- changes nothing. The file is below the root, and reached from it without following any link,
-- exactly if no name but the last one is that of a link.
theorem marking_ends (limits : Limits) (root : Path) (relative : String) (fs : FileSystem)
    (base : Location) (hb : fs.locate .status root = .ok base) (hd : fs.IsDirectory base) :
    Ends (marking limits root relative) fs
      (fun target fs' => ∃ names loc, components limits relative = .ok names ∧
        target = names.foldl (fun q s => q.join ⟨s⟩) root ∧
        fs.locate .status target = .ok loc ∧ Permits ownerBits loc fs fs' ∧
        (loc = names.reverse ++ base ↔ fs.AvoidsLinks base names))
      (fun _ fs' => fs' = fs ∧ ∀ target loc f, resolve limits root relative = .ok target →
        fs.locate .linkStatus target = .ok loc → fs.node? loc ≠ some (.file f)) := by
  unfold Ends marking
  cases hm : mark limits root relative fs with
  | error e =>
    refine ⟨rfl, fun target loc f hr hl hf => ?_⟩
    cases hm.symm.trans (mark_of_file hr hl hf)
  | ok result =>
    obtain ⟨target, fs'⟩ := result
    obtain ⟨hr, loc, hl, hp⟩ := of_mark hm
    obtain ⟨hc, rfl⟩ := eq_foldl_of_resolve hr
    obtain ⟨f, hf, _⟩ := hp.file
    have ⟨_, ha⟩ := accepted_of_components hc
    have ho : AllOrdinary (split relative) := ha.allOrdinary_split
    exact ⟨_, loc, hc, rfl, locate_status_of_linkStatus hl (by simp [hf]), hp,
      locate_eq_iff hb hd ho (split_ne_nil relative) hl hf⟩

theorem marking_beside_link :
    linked.locate .status ⟨"out"⟩ = .ok ["out"] ∧ linked.IsDirectory ["out"] ∧
    ∃ fs', marking {} ⟨"out"⟩ "f" linked = .ok ⟨"out/f"⟩ fs' ∧
      ∃ loc, linked.locate .status ⟨"out/f"⟩ = .ok loc ∧ Permits ownerBits loc linked fs' := by
  have hb : linked.locate .status ⟨"out"⟩ = .ok ["out"] := rfl
  have hd : linked.IsDirectory ["out"] := by decide
  obtain ⟨fs', hm, _⟩ := mark_linked (show resolve {} ⟨"out"⟩ "f" = .ok ⟨"out/f"⟩ from rfl) rfl
  have ho : marking {} ⟨"out"⟩ "f" linked = .ok ⟨"out/f"⟩ fs' := by rw [marking, hm]
  have ⟨_, loc, _, _, hl, hp, _⟩ := (marking_ends {} ⟨"out"⟩ "f" linked ["out"] hb hd).of_ok ho
  exact ⟨hb, hd, fs', ho, loc, hl, hp⟩

-- Below `r` the link is followed, to a file that is not below `r`.
theorem mark_outside :
    linked.locate .status ⟨"r"⟩ = .ok ["r"] ∧ linked.IsDirectory ["r"] ∧
    ∃ fs', mark {} ⟨"r"⟩ "l/f" linked = .ok (⟨"r/l/f"⟩, fs') ∧
      Permits ownerBits ["f", "out"] linked fs' ∧ ¬ ["r"] <:+ ["f", "out"] := by
  obtain ⟨fs', hm, hp⟩ := mark_linked (show resolve {} ⟨"r"⟩ "l/f" = .ok ⟨"r/l/f"⟩ from rfl) rfl
  exact ⟨rfl, by decide, fs', hm, hp, by decide⟩

end Executable
end TarGuard
