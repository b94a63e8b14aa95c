import TarGuard.Effect
import TarGuard.FileSystem.Call

namespace TarGuard.FileSystem

variable {fs fs₁ fs₂ fs₃ : FileSystem} {loc l : Location} {node : Node}

theorem ext_node? (hn : ∀ l, fs₁.node? l = fs₂.node? l) (hc : fs₁.current = fs₂.current)
    (ht : fs₁.clock = fs₂.clock) : fs₁ = fs₂ :=
  FileSystem.ext (Std.ExtTreeMap.ext_getElem? hn) hc ht

theorem current_put : (fs.put loc node).current = fs.current := by
  unfold put
  split <;> rfl

theorem clock_put : (fs.put loc node).clock = fs.clock := by
  unfold put
  split <;> rfl

theorem current_remove : (fs.remove loc).current = fs.current := by
  unfold remove
  split <;> rfl

theorem clock_remove : (fs.remove loc).clock = fs.clock := by
  unfold remove
  split <;> rfl

theorem put_of_not_accepts (h : ¬ fs.Accepts loc node) : fs.put loc node = fs :=
  dif_neg h

-- All that is there stays as it is. What is added is among the nodes that `new` speaks of.
structure Grows (new : Location → Node → Prop) (fs₁ fs₂ : FileSystem) : Prop where
  current : fs₂.current = fs₁.current
  clock   : fs₂.clock = fs₁.clock
  node    : ∀ l, fs₂.node? l = fs₁.node? l ∨
    fs₁.node? l = none ∧ ∃ node, fs₂.node? l = some node ∧ new l node

namespace Grows

variable {new new' : Location → Node → Prop}

theorem refl (fs : FileSystem) : Grows new fs fs :=
  ⟨rfl, rfl, fun _ => .inl rfl⟩

theorem kept (g : Grows new fs₁ fs₂) (h : fs₁.node? l = some node) : fs₂.node? l = some node := by
  cases g.node l
  case inl he => rw [he, h]
  case inr hn => simp [h] at hn

theorem absent (g : Grows new fs₁ fs₂) (h : fs₂.node? l = none) : fs₁.node? l = none := by
  cases hl : fs₁.node? l with
  | none => rfl
  | some node => exact nomatch (g.kept hl).symm.trans h

theorem added (g : Grows new fs₁ fs₂) (h₁ : fs₁.node? l = none) (h₂ : fs₂.node? l = some node) :
    new l node := by
  cases g.node l
  case inl he => simp [he, h₁] at h₂
  case inr hn =>
    have ⟨_, _, h, hw⟩ := hn
    cases h₂.symm.trans h
    exact hw

theorem trans (g₁ : Grows new fs₁ fs₂) (g₂ : Grows new fs₂ fs₃) : Grows new fs₁ fs₃ where
  current := g₂.current.trans g₁.current
  clock := g₂.clock.trans g₁.clock
  node l := by
    rcases g₂.node l with h | ⟨hn, node, h, hw⟩
    · rw [h]
      exact g₁.node l
    · refine .inr ⟨?_, node, h, hw⟩
      cases hl : fs₁.node? l with
      | none => rfl
      | some node => exact nomatch (g₁.kept hl).symm.trans hn

theorem mono (g : Grows new fs₁ fs₂) (h : ∀ l node, new l node → new' l node) :
    Grows new' fs₁ fs₂ where
  current := g.current
  clock := g.clock
  node l := (g.node l).imp_right fun ⟨hn, node, hs, hw⟩ => ⟨hn, node, hs, h l node hw⟩

theorem isDirectory (g : Grows new fs₁ fs₂) (h : fs₁.IsDirectory l) : fs₂.IsDirectory l := by
  unfold IsDirectory at *
  cases hl : fs₁.node? l with
  | none => simp [hl] at h
  | some node => rwa [g.kept hl, ← hl]

theorem put (hn : fs.node? loc = none) (hw : new loc node) : Grows new fs (fs.put loc node) where
  current := current_put
  clock := clock_put
  node l := by
    by_cases ha : fs.Accepts loc node
    case neg => exact .inl (by rw [put_of_not_accepts ha])
    by_cases hl : l = loc
    case pos =>
      subst hl
      exact .inr ⟨hn, node, node?_put_self ha, hw⟩
    case neg => exact .inl (node?_put_of_ne hl)

theorem eq_of_forall (g : Grows new fs₁ fs₂)
    (h : ∀ l node, new l node → fs₂.node? l = some node → fs₁.node? l ≠ none) : fs₂ = fs₁ := by
  refine ext_node? (fun l => ?_) g.current g.clock
  cases g.node l
  case inl he => exact he
  case inr hn =>
    have ⟨hn, node, hs, hw⟩ := hn
    exact absurd hn (h l node hw hs)

theorem file_iff (g : Grows new fs₁ fs₂) (hd : ∀ l node, new l node → node.isDirectory)
    (l : Location) (f : File) :
    fs₂.node? l = some (.file f) ↔ fs₁.node? l = some (.file f) := by
  refine ⟨fun h => ?_, g.kept⟩
  cases hn : fs₁.node? l with
  | none => cases hd l _ (g.added hn h)
  | some node => rw [← h, g.kept hn]

end Grows

theorem isDirectory_of_node? {mode : UInt32} (h : fs.node? loc = some (.directory mode)) :
    fs.IsDirectory loc :=
  isDirectory_iff.mpr ⟨mode, h⟩

theorem isDirectory_put (ha : fs.Accepts loc (.directory mode)) :
    (fs.put loc (.directory mode)).IsDirectory loc :=
  isDirectory_of_node? (node?_put_self ha)

theorem isDirectory_of_node?_cons {name : String} (h : fs.node? (name :: loc) = some node) :
    fs.IsDirectory loc :=
  fs.parent_isDirectory name loc (Std.ExtTreeMap.mem_iff_isSome_getElem?.mpr (by
    rw [show fs.nodes[name :: loc]? = some node from h]
    rfl))

theorem isFileName_of_node?_cons {name : String} (h : fs.node? (name :: loc) = some node) :
    IsFileName name :=
  fs.isFileName name loc (Std.ExtTreeMap.mem_iff_isSome_getElem?.mpr (by
    rw [show fs.nodes[name :: loc]? = some node from h]
    rfl))

theorem isFileName_of_mem (h : fs.node? loc = some node) : ∀ s ∈ loc, IsFileName s := by
  induction loc generalizing node with
  | nil => simp
  | cons name loc ih =>
    have ⟨_, hm⟩ := isDirectory_iff.mp (isDirectory_of_node?_cons h)
    exact List.forall_mem_cons.mpr ⟨isFileName_of_node?_cons h, ih hm⟩

theorem isDirectory_of_suffix (h : fs.node? loc = some node) (hs : l <:+ loc) (hne : l ≠ loc) :
    fs.IsDirectory l := by
  induction loc generalizing node with
  | nil => exact absurd (List.suffix_nil.mp hs) hne
  | cons name loc ih =>
    have hd := isDirectory_of_node?_cons h
    rcases List.suffix_cons_iff.mp hs with rfl | hs
    · exact absurd rfl hne
    · by_cases he : l = loc
      · subst he
        exact hd
      · have ⟨_, hm⟩ := isDirectory_iff.mp hd
        exact ih hm hs he

theorem IsDirectory.above (h : fs.IsDirectory loc) (hs : l <:+ loc) : fs.IsDirectory l := by
  by_cases he : l = loc
  · exact he ▸ h
  · have ⟨_, hn⟩ := isDirectory_iff.mp h
    exact isDirectory_of_suffix hn hs he

theorem node?_of_suffix (h : fs.node? l = none) (hs : l <:+ loc) : fs.node? loc = none := by
  cases hn : fs.node? loc with
  | none => rfl
  | some node =>
    by_cases hl : l = loc
    case pos => exact nomatch (hl ▸ h).symm.trans hn
    case neg =>
      have ⟨_, hm⟩ := isDirectory_iff.mp (isDirectory_of_suffix hn hs hl)
      exact nomatch h.symm.trans hm

end TarGuard.FileSystem
