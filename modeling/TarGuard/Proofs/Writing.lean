import TarGuard.Proofs.Calls

namespace TarGuard.FileSystem

variable {fs fs' : FileSystem} {purpose : Purpose} {n : Nat} {loc l : Location}
  {names : List String} {name : String} {p : Path} {content : List UInt8} {g : File}

def HasNoOther (fs : FileSystem) (loc : Location) : Prop :=
  ∀ node, fs.node? loc = some node → ∃ f, node = .file f

theorem HasNoOther.not_isDirectory (h : fs.HasNoOther l) : ¬ fs.IsDirectory l := by
  intro hd
  have ⟨_, hm⟩ := isDirectory_iff.mp hd
  obtain ⟨f, hf⟩ := h _ hm
  cases hf

theorem Walks.put_file (h : Walks fs purpose n loc names l) (hl : fs.HasNoOther l)
    (ha : fs.Accepts l (.file g)) : Walks (fs.put l (.file g)) .status n loc names l := by
  have hr := Purpose.status.not_refusesSlash rfl
  have hput : (fs.put l (.file g)).node? l = some (.file g) := node?_put_self ha
  induction h with
  | done => exact .done
  | skip h _ ih => exact .skip h (ih hl ha hput)
  | up _ ih => exact .up (ih hl ha hput)
  | @enter s loc _ _ l h _ _ ih =>
    have hne : s :: loc ≠ l := fun he => hl.not_isDirectory (he ▸ h)
    have hd : (fs.put l (.file g)).IsDirectory (s :: loc) := by
      rwa [IsDirectory, node?_put_of_ne hne]
    exact .enter hd (hr _) (ih hl ha hput)
  | last he hh hu hs _ _ =>
    refine .last he hh hu hs ?_ fun _ t ht => nomatch hput.symm.trans ht
    simp [IsDirectory, hput, Node.isDirectory]
  | @follow s loc rest _ l t h _ _ _ ih =>
    have hne : s :: loc ≠ l := by
      rintro rfl
      obtain ⟨f, hf⟩ := hl _ h
      cases hf
    exact .follow t ((node?_put_of_ne hne).trans h) (hr _) (fun _ => rfl) (ih hl ha hput)

theorem of_write (h : fs.write p content = .ok fs') :
    ∃ l g, fs.locate .write p = .ok l ∧ fs.HasNoOther l ∧ fs.Accepts l (.file g) ∧
      g.content = content ∧ fs' = fs.put l (.file g) := by
  unfold write at h
  cases hl : fs.locate .write p with
  | error e => simp [hl, bind, Except.bind] at h
  | ok l =>
    simp only [hl, bind, Except.bind] at h
    split at h
    case h_1 f hf =>
      cases h
      refine ⟨l, _, rfl, fun node hn => ⟨f, ?_⟩, accepts_file hf _, rfl, rfl⟩
      exact Option.some.inj (hn.symm.trans hf)
    case h_2 => cases h
    case h_3 hn =>
      split at h
      case isTrue ha =>
        cases h
        refine ⟨l, _, rfl, fun node h => ?_, ha, rfl, rfl⟩
        cases hn.symm.trans h
      case isFalse => cases h

theorem read_of_write (h : fs.write p content = .ok fs') : fs'.read p = .ok content := by
  obtain ⟨l, g, hl, hother, ha, hc, rfl⟩ := of_write h
  obtain ⟨ht, hw⟩ := locate_eq_ok_iff.mp hl
  have hl' : (fs.put l (.file g)).locate .status p = .ok l := by
    rw [locate_eq_ok_iff, current_put]
    exact ⟨ht, hw.put_file hother ha⟩
  simp only [FileSystem.read, status, hl', bind, Except.bind, existing, node?_put_self ha]
  exact congrArg Except.ok hc

theorem clock_of_write (h : fs.write p content = .ok fs') : fs'.clock = fs.clock := by
  obtain ⟨l, g, -, -, -, -, rfl⟩ := of_write h
  exact clock_put

theorem Leads.write_cons (h : fs.Leads names loc) (hn : IsOrdinary name)
    (hz : '\x00' ∉ name.toList) (hf : Fits names name) (hnode : fs.node? (name :: loc) = none)
    (content : List UInt8) :
    fs.write (pathTo (name :: names)) content =
      .ok (fs.put (name :: loc) (.file ⟨content, defaultFileMode, fs.clock⟩)) := by
  have hl : fs.locate .write (pathTo (name :: names)) = .ok (name :: loc) := by
    rw [h.locate_last hn hz (fun _ t ht => nomatch hnode.symm.trans ht), if_pos hf]
  simp only [write, hl, bind, Except.bind, hnode, if_pos (h.accepts_cons hn hz hf hnode _)]
  rfl

end TarGuard.FileSystem
