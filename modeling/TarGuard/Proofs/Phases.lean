import TarGuard.Proofs.Steps

namespace TarGuard

open FileSystem SecureDirectory OutputFile EntryPath

def Header.place (h : Header) : Location :=
  if h.kind = .directory then h.trail else h.trail.tail

theorem Header.place_suffix (h : Header) : h.place <:+ h.trail := by
  unfold place
  split
  · exact List.suffix_rfl
  · exact List.tail_suffix h.trail

namespace Phase

inductive Holds (names : List String) (base : Location) (fs : FileSystem) (h : Header) :
    Phase → FileSystem → Prop
  | making {todo reached fs'} : h.place = todo.reverse ++ reached →
    fs'.Leads (reached ++ names) (reached ++ base) → Grows (IsOnTrail base reached) fs fs' →
    Holds names base fs h
      (.making h (pathTo (h.trail ++ names)) (pathsTo (reached ++ names) todo)) fs'
  | filling {file left content fs'} : file.location = h.trail ++ base →
    Grows (IsOnTrail base h.trail) fs fs' → IsFree fs' file.location →
    (∀ content, file.discard (holding fs' file.location content) = fs') →
    content.length + left = h.size.toNat →
    Holds names base fs h (.filling h file left) (holding fs' file.location content)
  | skipping {fs'} : Grows (IsOnTrail base h.trail) fs fs' →
    Holds names base fs h (.skipping h) fs'

theorem Holds.header? {names : List String} {base : Location} {fs fs' : FileSystem} {h : Header}
    {p : Phase} (hh : p.Holds names base fs h fs') : p.header? = some h := by
  cases hh <;> rfl

theorem Holds.ne_ready {names : List String} {base : Location} {fs fs' : FileSystem} {h : Header}
    {p : Phase} (hh : p.Holds names base fs h fs') : p ≠ .ready := by
  intro hp
  subst hp
  cases hh

variable {x : Extractor} {names todo reached : List String} {base : Location}
  {fs fs' : FileSystem} {h : Header} {t : Session} {p q : Phase}

theorem Holds.start (hd : h.place = todo.reverse) (hl : fs.Leads names base) :
    Holds names base fs h (.making h (pathTo (h.trail ++ names)) (pathsTo names todo)) fs :=
  @Holds.making names base fs h todo [] fs (by rw [hd, List.append_nil]) hl (Grows.refl fs)

theorem Holds.step_level {name : String} (ha : Accepted x.limits h.fullPath)
    (hd : h.place = (name :: todo).reverse ++ reached)
    (hl : t.files.Leads (reached ++ names) (reached ++ base))
    (g : Grows (IsOnTrail base reached) fs t.files) :
    Ends (x.step (pathTo names) (.making h (pathTo (h.trail ++ names))
        (pathsTo (reached ++ names) (name :: todo)))) t
      (fun o t' => ∃ q, o = some q ∧ Holds names base fs h q t'.files)
      (fun _ t' => t'.files = t.files) := by
  have hm : name ∈ h.trail := h.place_suffix.subset (by simp [hd])
  have he := level_ends hl (ha.allOrdinary name hm)
  refine (Ends.onFiles he).bind ?_ ?_
  · intro _ t' ⟨fs', ⟨hfs, _⟩, ht⟩
    rw [ht, hfs]
  · intro _ t' ⟨fs', ⟨g', hl'⟩, ht⟩
    subst ht
    refine Ends.pure ⟨_, rfl, @Holds.making names base fs h todo (name :: reached) fs' ?_ hl' ?_⟩
    · simpa using hd
    · refine (g.mono fun _ _ hw => hw.mono (List.suffix_cons name reached)).trans ?_
      exact g'.mono fun _ _ hw => .last hw.1 hw.2

theorem Holds.step_entry (ha : Accepted x.limits h.fullPath)
    (hl : t.files.Leads (h.place ++ names) (h.place ++ base))
    (g : Grows (IsOnTrail base h.place) fs t.files) :
    Ends (x.step (pathTo names) (.making h (pathTo (h.trail ++ names)) [])) t
      (fun o t' => ∃ q, o = some q ∧ Holds names base fs h q t'.files)
      (fun _ t' => t'.files = t.files) := by
  have hg := g.mono fun _ _ hw => hw.mono h.place_suffix
  rw [Extractor.step_making]
  split
  case isTrue => exact Ends.pure ⟨_, rfl, .skipping hg⟩
  case isFalse hk =>
    have ⟨name, above, ht⟩ := h.exists_trail_eq_cons
    have hp : h.place = above := by simp [Header.place, hk, ht]
    have ho : AllOrdinary h.trail := ha.allOrdinary
    have hz : ∀ n ∈ h.trail, '\x00' ∉ n.toList := ha.no_nul
    rw [ht] at ho hz
    rw [hp] at hl
    simp only [ht, List.cons_append]
    have hzn := hz name List.mem_cons_self
    refine (Ends.onOutput (create_ends _ hl ho.head hzn)).bind ?_ ?_
    · intro _ t' ⟨fs', ⟨hfs, _⟩, ht⟩
      rw [ht, hfs]
    · intro file t' ⟨fs', ⟨hfile, _, hf, hfree, hfs⟩, ht'⟩
      subst ht' hfs hfile
      refine Ends.pure ⟨_, rfl, .filling ?_ hg hfree ?_ ?_⟩
      · simp [ht]
      · exact fun content => discard_holding hl ho.head hzn hf hfree content
      · simp

theorem Holds.step_chunk {file : OutputFile} {left : Nat} {content : List UInt8}
    (hl : left ≠ 0) (hloc : file.location = h.trail ++ base)
    (g : Grows (IsOnTrail base h.trail) fs fs') (hfree : IsFree fs' file.location)
    (hd : ∀ content, file.discard (holding fs' file.location content) = fs')
    (hsize : content.length + left = h.size.toNat)
    (ht : t.files = holding fs' file.location content) :
    Ends (x.step (pathTo names) (.filling h file left)) t
      (fun o t' => ∃ q, o = some q ∧ Holds names base fs h q t'.files)
      (fun _ t' => t'.files = fs') := by
  rw [Extractor.step_filling, if_neg hl]
  have hc := Extractor.copyChunk_ends (x := x) left hfree ht
  refine (Ends.withCleanUp (hc.imp (fun _ _ hc => hc) ?_)).bind (fun _ _ he => he) ?_
  · intro _ t' ⟨_, _, ht', _⟩
    rw [ht', Extractor.discarding_eq]
    simp only [hd]
  · intro _ t' ⟨bytes, input, hb, _, ht'⟩
    subst ht'
    refine Ends.pure ⟨_, rfl, .filling hloc g hfree hd ?_⟩
    rw [List.length_append, hb]
    omega

theorem Holds.step_padding {file : OutputFile} {content : List UInt8}
    (hd : ∀ content, file.discard (holding fs' file.location content) = fs')
    (ht : t.files = holding fs' file.location content) :
    Ends (x.step (pathTo names) (.filling h file 0)) t (fun o _ => o = some .ready)
      (fun _ t' => t'.files = fs') := by
  rw [Extractor.step_filling, if_pos rfl]
  have hs := Ends.onInput (Input.skip_ends (padding h.size).toNat t.input)
  refine (Ends.withCleanUp (hs.imp (fun _ _ hs => hs) ?_)).bind (fun _ _ he => he) ?_
  · intro _ t' ⟨input, _, ht'⟩
    rw [ht', Extractor.discarding_eq]
    simp only [ht, hd]
  · intro _ t' _
    exact Ends.modify_bind (Ends.pure rfl)

theorem step_skipping (hp : h.paddedSize = .ok (h.size.toNat + (padding h.size).toNat)) :
    Ends (x.step (pathTo names) (.skipping h)) t (fun o _ => o = some .ready)
      (fun _ t' => t'.files = t.files) := by
  refine (Ends.onInput (Extractor.skipPayload_ends hp t.input)).bind ?_ ?_
  · intro _ t' ⟨input, _, ht⟩
    rw [ht]
  · intro _ t' _
    exact Ends.modify_bind (Ends.pure rfl)

theorem Holds.step_ends (ha : Accepted x.limits h.fullPath)
    (hp : h.paddedSize = .ok (h.size.toNat + (padding h.size).toNat))
    (hh : p.Holds names base fs h t.files) :
    Ends (x.step (pathTo names) p) t
      (fun o t' => o = some .ready ∨ ∃ q, o = some q ∧ q.Holds names base fs h t'.files)
      (fun _ t' => Grows (IsOnTrail base h.trail) fs t'.files) := by
  generalize hf : t.files = files at hh
  cases hh with
  | @making todo reached _ hd hl g =>
    have hr : reached <:+ h.trail :=
      (List.suffix_append _ _).trans (hd ▸ h.place_suffix)
    have hg := g.mono fun _ _ hw => hw.mono hr
    subst hf
    cases todo with
    | nil =>
      rw [List.reverse_nil, List.nil_append] at hd
      subst hd
      exact (step_entry ha hl g).imp (fun _ _ ho => .inr ho) fun _ _ ht => ht ▸ hg
    | cons name todo =>
      exact (step_level ha hd hl g).imp (fun _ _ ho => .inr ho) fun _ _ ht => ht ▸ hg
  | @filling file left content fs' hloc g hfree hdis hsize =>
    by_cases hl : left = 0
    · subst hl
      exact (step_padding hdis hf).imp (fun _ _ ho => .inl ho) fun _ _ ht => ht ▸ g
    · exact (step_chunk hl hloc g hfree hdis hsize hf).imp (fun _ _ ho => .inr ho)
        fun _ _ ht => ht ▸ g
  | skipping g =>
    subst hf
    exact (step_skipping hp).imp (fun _ _ ho => .inl ho) fun _ _ ht => ht ▸ g

end Phase
end TarGuard
