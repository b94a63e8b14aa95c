import TarGuard.Proofs.Leads

namespace TarGuard.FileSystem

section

variable {fs fs' : FileSystem} {p : Path} {loc : Location} {f : File} {node : Node} {mode : UInt32}

theorem accepts_file (h : fs.node? loc = some (.file f)) (g : File) : fs.Accepts loc (.file g) := by
  have hd : ¬ fs.IsDirectory loc := by simp [IsDirectory, h, Node.isDirectory]
  cases loc with
  | nil => exact absurd fs.root_isDirectory hd
  | cons s l =>
    exact ⟨isFileName_of_node?_cons h, isDirectory_of_node?_cons h, fun hl => absurd hl hd⟩

theorem existing_eq_ok_iff : fs.existing loc = .ok node ↔ fs.node? loc = some node := by
  rw [existing]
  cases fs.node? loc <;> simp

theorem status_eq_ok_iff :
    fs.status p = .ok node ↔
      ∃ loc, fs.locate .status p = .ok loc ∧ fs.node? loc = some node := by
  rw [status]
  cases fs.locate .status p <;> simp [bind, Except.bind, existing_eq_ok_iff]

theorem linkStatus_eq_ok_iff :
    fs.linkStatus p = .ok node ↔
      ∃ loc, fs.locate .linkStatus p = .ok loc ∧ fs.node? loc = some node := by
  rw [linkStatus]
  cases fs.locate .linkStatus p <;> simp [bind, Except.bind, existing_eq_ok_iff]

theorem locateNewDirectory_eq_ok_iff :
    fs.locateNewDirectory p = .ok loc ↔ checkText p.text = .ok () ∧
      Walks fs .linkStatus maxLinks (startOf p.text fs.current)
        ((lookupPieces p.text).filter (· ≠ "")) loc := by
  rw [← walk_eq_ok_iff, locateNewDirectory]
  cases checkText p.text <;> simp [bind, Except.bind]

theorem makeDirectory_eq_ok_iff :
    fs.makeDirectory p mode = .ok fs' ↔ ∃ loc, fs.locateNewDirectory p = .ok loc ∧
      fs.node? loc = none ∧ fs' = fs.put loc (.directory mode) := by
  rw [makeDirectory]
  cases hl : fs.locateNewDirectory p with
  | error => simp [bind, Except.bind]
  | ok loc =>
    cases hn : fs.node? loc <;> simp [bind, Except.bind, hn, pure, Except.pure, eq_comm]

theorem locate_status_of_linkStatus (h : fs.locate .linkStatus p = .ok loc)
    (hl : ∀ t, fs.node? loc ≠ some (.link t)) : fs.locate .status p = .ok loc := by
  have g : Grows (fun _ _ => False) fs fs := Grows.refl fs
  exact locate_of_grows h g hl

end

namespace Leads

variable {fs : FileSystem} {loc : Location} {names : List String} {name : String} {mode : UInt32}
  (h : fs.Leads names loc) (hn : IsOrdinary name) (hz : '\x00' ∉ name.toList)

include h hn hz

theorem makeDirectory_cons :
    fs.makeDirectory (pathTo (name :: names)) mode =
      if Fits names name then
        match fs.node? (name :: loc) with
        | some _ => .error .alreadyExists
        | none => .ok (fs.put (name :: loc) (.directory mode))
      else .error .nameTooLong := by
  rw [makeDirectory, locateNewDirectory_pathTo (h.ordinary.cons hn), h.locate_cons hn hz rfl]
  by_cases hf : Fits names name
  · rw [if_pos hf, if_pos hf]
    rfl
  · rw [if_neg hf, if_neg hf]
    rfl

theorem linkStatus_cons :
    fs.linkStatus (pathTo (name :: names)) =
      if Fits names name then fs.existing (name :: loc) else .error .nameTooLong := by
  rw [linkStatus, h.locate_cons hn hz rfl]
  by_cases hf : Fits names name
  · rw [if_pos hf, if_pos hf]
    rfl
  · rw [if_neg hf, if_neg hf]
    rfl

theorem createFile_cons :
    fs.createFile (pathTo (name :: names)) mode =
      if Fits names name then
        match fs.node? (name :: loc) with
        | some _ => .error .alreadyExists
        | none => .ok (name :: loc, fs.put (name :: loc) (.file ⟨[], mode, fs.clock⟩))
      else .error .nameTooLong := by
  rw [createFile, h.locate_cons hn hz rfl]
  by_cases hf : Fits names name
  · rw [if_pos hf, if_pos hf]
    rfl
  · rw [if_neg hf, if_neg hf]
    rfl

theorem unlink_cons {f : File} (hf : Fits names name)
    (hnode : fs.node? (name :: loc) = some (.file f)) :
    fs.unlink (pathTo (name :: names)) = .ok (fs.remove (name :: loc)) := by
  rw [unlink, h.locate_cons hn hz rfl, if_pos hf]
  simp only [bind, Except.bind, hnode]
  rfl

theorem accepts_cons (hf : Fits names name) (hnode : fs.node? (name :: loc) = none)
    (node : Node) : fs.Accepts (name :: loc) node :=
  ⟨hn.isFileName hz hf.2, h.isDirectory, fun hd => by simp [IsDirectory, hnode] at hd⟩

end Leads

end TarGuard.FileSystem
