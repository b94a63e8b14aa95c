import TarGuard.Extraction.OutputFile
import TarGuard.Proofs.Calls
import TarGuard.Proofs.Ends

namespace TarGuard.OutputFile

open FileSystem

variable {fs : FileSystem} {loc : Location} {names : List String} {name : String}

theorem Failure.error_eq (failure : Failure) :
    failure.error = .writeFailed ∨ failure.error = .diskFull := by
  unfold Failure.error
  split
  · exact .inr rfl
  · exact .inl rfl

def holding (fs : FileSystem) (loc : Location) (content : List UInt8) : FileSystem :=
  fs.put loc (.file ⟨content, mode, fs.clock⟩)

structure IsFree (fs : FileSystem) (loc : Location) : Prop where
  node    : fs.node? loc = none
  accepts : ∀ f, fs.Accepts loc (.file f)

namespace IsFree

variable (h : IsFree fs loc)

include h

theorem node?_holding (content : List UInt8) :
    (holding fs loc content).node? loc = some (.file ⟨content, mode, fs.clock⟩) :=
  node?_put_self (h.accepts _)

theorem grows_holding {new : Location → Node → Prop} {content : List UInt8}
    (hw : new loc (.file ⟨content, mode, fs.clock⟩)) : Grows new fs (holding fs loc content) :=
  Grows.put h.node hw

theorem append_holding (content bytes : List UInt8) :
    (holding fs loc content).append loc bytes = holding fs loc (content ++ bytes) := by
  have hclock : (holding fs loc content).clock = fs.clock := clock_put
  have hnode := h.node?_holding content
  have ha : (holding fs loc content).Accepts loc (.file ⟨content ++ bytes, mode, fs.clock⟩) := by
    have hd : ¬ (holding fs loc content).IsDirectory loc := by
      simp [IsDirectory, hnode, Node.isDirectory]
    have g : Grows (fun _ _ => True) fs (holding fs loc content) := h.grows_holding trivial
    have hfs := h.accepts ⟨content, mode, fs.clock⟩
    cases loc with
    | nil => exact absurd hfs (by simp [Accepts, Node.isDirectory])
    | cons name loc => exact ⟨hfs.1, g.isDirectory hfs.2.1, fun h => absurd h hd⟩
  simp only [append, hnode, hclock]
  refine ext_node? (fun l => ?_) (current_put.trans (current_put.trans current_put.symm))
    (clock_put.trans (clock_put.trans clock_put.symm))
  by_cases hl : l = loc
  case pos => rw [hl, node?_put_self ha, h.node?_holding]
  case neg => rw [node?_put_of_ne hl, holding, holding, node?_put_of_ne hl, node?_put_of_ne hl]

theorem remove_holding (content : List UInt8) : (holding fs loc content).remove loc = fs := by
  have hd : ¬ (holding fs loc content).IsDirectory loc := by
    simp [IsDirectory, h.node?_holding, Node.isDirectory]
  refine ext_node? (fun l => ?_) (current_remove.trans current_put) (clock_remove.trans clock_put)
  by_cases hl : l = loc
  case pos => rw [hl, node?_remove_self hd, h.node]
  case neg => rw [node?_remove_of_ne hl, holding, node?_put_of_ne hl]

end IsFree

theorem isFree_cons (h : fs.Leads names loc) (hn : IsOrdinary name) (hz : '\x00' ∉ name.toList)
    (hf : Fits names name) (hnode : fs.node? (name :: loc) = none) : IsFree fs (name :: loc) :=
  ⟨hnode, fun f => h.accepts_cons hn hz hf hnode (.file f)⟩

theorem locate_holding {content : List UInt8} (h : fs.Leads names loc) (hn : IsOrdinary name)
    (hz : '\x00' ∉ name.toList) (hf : Fits names name) (hfree : IsFree fs (name :: loc)) :
    (holding fs (name :: loc) content).locate .status (pathTo (name :: names)) =
      .ok (name :: loc) := by
  have hl : fs.locate .linkStatus (pathTo (name :: names)) = .ok (name :: loc) := by
    rw [h.locate_cons hn hz rfl, if_pos hf]
  have g : Grows (fun _ _ => True) fs (holding fs (name :: loc) content) :=
    hfree.grows_holding trivial
  apply locate_of_grows hl g
  intro t ht
  cases (hfree.node?_holding content).symm.trans ht

theorem read_holding (h : fs.Leads names loc) (hn : IsOrdinary name) (hz : '\x00' ∉ name.toList)
    (hf : Fits names name) (hfree : IsFree fs (name :: loc)) (content : List UInt8) :
    (holding fs (name :: loc) content).read (pathTo (name :: names)) = .ok content := by
  have hs : (holding fs (name :: loc) content).status (pathTo (name :: names)) =
      .ok (.file ⟨content, mode, fs.clock⟩) := by
    rw [status, locate_holding h hn hz hf hfree]
    simp only [bind, Except.bind, existing, hfree.node?_holding]
  simp only [FileSystem.read, hs]
  rfl

theorem create_apply (failure? : Option Failure) (p : Path) (fs : FileSystem) :
    create failure? p fs =
      match fs.createFile p mode with
      | .ok (loc, fs') =>
        match failure? with
        | some failure => .error failure.error fs
        | none => .ok ⟨p, loc⟩ fs'
      | .error .tooManyLinks => .error .linkDetected fs
      | .error .alreadyExists =>
        match fs.linkStatus p with
        | .ok (.link _) => .error .linkDetected fs
        | _ => .error .writeFailed fs
      | .error _ => .error .writeFailed fs := by
  simp only [create, bind, EStateM.bind, get, getThe, MonadStateOf.get, get_apply]
  cases fs.createFile p mode with
  | ok => cases failure? <;> rfl
  | error e =>
    cases e <;> try rfl
    simp only [EStateM.bind, get_apply]
    cases fs.linkStatus p with
    | error => rfl
    | ok node => cases node <;> rfl

theorem create_ends (failure? : Option Failure) (h : fs.Leads names loc) (hn : IsOrdinary name)
    (hz : '\x00' ∉ name.toList) :
    Ends (create failure? (pathTo (name :: names))) fs
      (fun f fs' => f = ⟨pathTo (name :: names), name :: loc⟩ ∧ failure? = none ∧
        Fits names name ∧ IsFree fs (name :: loc) ∧ fs' = holding fs (name :: loc) [])
      (fun e fs' => fs' = fs ∧
        (e = .linkDetected ∧ (∃ t, fs.node? (name :: loc) = some (.link t)) ∨
          e = .writeFailed ∨ ∃ failure, failure? = some failure ∧ e = failure.error)) := by
  rw [Ends, create_apply, h.createFile_cons hn hz, h.linkStatus_cons hn hz]
  by_cases hf : Fits names name
  case neg =>
    rw [if_neg hf, if_neg hf]
    exact ⟨rfl, .inr (.inl rfl)⟩
  case pos =>
    rw [if_pos hf, if_pos hf]
    cases hnode : fs.node? (name :: loc) with
    | none =>
      cases failure? with
      | none => exact ⟨rfl, rfl, hf, isFree_cons h hn hz hf hnode, rfl⟩
      | some failure => exact ⟨rfl, .inr (.inr ⟨failure, rfl, rfl⟩)⟩
    | some node =>
      simp only [existing, hnode]
      cases node with
      | file => exact ⟨rfl, .inr (.inl rfl)⟩
      | directory => exact ⟨rfl, .inr (.inl rfl)⟩
      | link t => exact ⟨rfl, .inl ⟨rfl, t, rfl⟩⟩

theorem write_ends (failure? : Option Failure) (f : OutputFile) (bytes : List UInt8)
    (fs : FileSystem) :
    Ends (write failure? f bytes) fs (fun _ fs' => fs' = fs.append f.location bytes)
      (fun e fs' => ∃ failure, failure? = some failure ∧ failure.after < bytes.length ∧
        fs' = fs.append f.location (bytes.take failure.after) ∧ e = failure.error) := by
  unfold write
  cases hf : failure?.filter (·.after < bytes.length) with
  | none => exact Ends.modify rfl
  | some failure =>
    have ⟨h, ha⟩ := Option.filter_eq_some_iff.mp hf
    exact Ends.modify_bind (Ends.throw ⟨failure, h, of_decide_eq_true ha, rfl, rfl⟩)

theorem write_holding_ends (failure? : Option Failure) (p : Path) (hfree : IsFree fs loc)
    (content bytes : List UInt8) :
    Ends (write failure? ⟨p, loc⟩ bytes) (holding fs loc content)
      (fun _ fs' => fs' = holding fs loc (content ++ bytes))
      (fun e fs' => ∃ failure, failure? = some failure ∧
        fs' = holding fs loc (content ++ bytes.take failure.after) ∧ e = failure.error) := by
  refine (write_ends failure? ⟨p, loc⟩ bytes _).imp ?_ ?_
  · rintro _ _ rfl
    exact hfree.append_holding content bytes
  · rintro e _ ⟨failure, hf, -, rfl, he⟩
    exact ⟨failure, hf, hfree.append_holding content _, he⟩

theorem discard_holding (h : fs.Leads names loc) (hn : IsOrdinary name)
    (hz : '\x00' ∉ name.toList) (hf : Fits names name) (hfree : IsFree fs (name :: loc))
    (content : List UInt8) :
    discard ⟨pathTo (name :: names), name :: loc⟩ (holding fs (name :: loc) content) = fs := by
  have g : Grows (fun _ _ => True) fs (holding fs (name :: loc) content) :=
    hfree.grows_holding trivial
  rw [discard, (h.grows g).unlink_cons hn hz hf (hfree.node?_holding content)]
  exact hfree.remove_holding content

end TarGuard.OutputFile
