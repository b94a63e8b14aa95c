import TarGuard.Proofs.Completeness

namespace TarGuard

open FileSystem SecureDirectory

instance : Add Summary where
  add a b := {
    filesWritten := a.filesWritten + b.filesWritten
    directoriesCreated := a.directoriesCreated + b.directoriesCreated
    entriesSkipped := a.entriesSkipped + b.entriesSkipped
    bytesExtracted := a.bytesExtracted + b.bytesExtracted }

section Before

variable {fs fs' : FileSystem} {new : Location → Node → Prop} {names trail : List String}
  {base : Location} {h : Header}

theorem SecureDirectory.IsClear.of_grows (g : Grows new fs fs')
    (hc : IsClear fs' names base trail) : IsClear fs names base trail := by
  intro name above hs
  have ⟨hfit, hn⟩ := hc name above hs
  refine ⟨hfit, ?_⟩
  cases hn' : fs.node? (name :: (above ++ base)) with
  | none => exact .inl rfl
  | some node =>
    have hkept := g.kept hn'
    cases hn with
    | inl hn => cases hkept.symm.trans hn
    | inr hd => exact .inr (by rwa [IsDirectory, hkept, ← hn'] at hd)

theorem Extractor.HasPlace.of_grows (g : Grows new fs fs') (hp : HasPlace fs' names base h) :
    HasPlace fs names base h := by
  cases hp with
  | directory hk hc => exact .directory hk (hc.of_grows g)
  | regular hk hc hn => exact .regular hk (hc.of_grows g) (g.absent hn)
  | other hk => exact .other hk

theorem Limits.Suits.append {l : Limits} {hs hs' : List Header} (g : Grows new fs fs')
    (ha : l.Suits fs names base hs) (ha' : l.Suits fs' names base hs')
    (hapart : ∀ h ∈ hs, ∀ h' ∈ hs', ¬ h.Blocks h' ∧ ¬ h'.Blocks h)
    (hf : (hs ++ hs').length ≤ l.files.toNat)
    (ht : ((hs ++ hs').map (·.size.toNat)).sum ≤ l.totalSize.toNat) :
    l.Suits fs names base (hs ++ hs') where
  files n hn := by
    have hlt := l.files.toNat_lt
    rw [UInt64.le_iff_toNat_le, UInt64.toNat_ofNat', Nat.mod_eq_of_lt (by omega)]
    omega
  fileSize := List.forall_mem_append.mpr ⟨ha.fileSize, ha'.fileSize⟩
  totalSize := ht
  accepted := List.forall_mem_append.mpr ⟨ha.accepted, ha'.accepted⟩
  place := List.forall_mem_append.mpr ⟨ha.place, fun h hm => (ha'.place h hm).of_grows g⟩
  apart := List.pairwise_append.mpr ⟨ha.apart, ha'.apart, hapart⟩

end Before

theorem Entry.sum_size_written {entries : List Entry} (h : ∀ e ∈ entries, e.Storable) :
    (((entries.map Entry.written).map (·.header)).map (·.size.toNat)).sum =
      (entries.map (·.header.size.toNat)).sum := by
  rw [List.map_map, List.map_map]
  refine congrArg List.sum (List.map_congr_left fun e he => ?_)
  exact congrArg UInt64.toNat (h e he).size_written

namespace Extractor

variable {x : Extractor} {source source' : Source} {destination : Path} {names names' : List String}
  {base base' : Location} {es es₁ es₂ : List Entry} {s s' s₁ s₂ t t' t₁ t₂ u : Session}
  {fs fs' fs₁ fs₂ fs₁' fs₂' : FileSystem} {summary summary₁ summary₂ : Summary}

namespace Begins

theorem unique (h : Begins source destination fs names base s)
    (h' : Begins source destination fs names' base' s') :
    names' = names ∧ base' = base ∧ s' = s := by
  have hnames : names' = names :=
    pathTo_injective h'.leads.ordinary h.leads.ordinary (Except.ok.inj (h'.root.symm.trans h.root))
  subst hnames
  have hprepares := h'.prepares.symm.trans h.prepares
  have hfiles : s'.files = s.files := by
    injection hprepares
  have hbase := h'.leads.locate.symm.trans (hfiles ▸ h.leads.locate)
  refine ⟨rfl, Except.ok.inj hbase, Session.ext hfiles ?_ ?_ ?_⟩
  · exact Except.ok.inj (h'.opens.symm.trans h.opens)
  · rw [h'.seen, h.seen]
  · rw [h'.summary, h.summary]

theorem resume {new : Location → Node → Prop} {input : Input}
    (h : Begins source destination fs names base s) (g : Grows new s.files fs')
    (hs : source'.open fs' = .ok input) :
    Begins source' destination fs' names base { files := fs', input := input } where
  opens := hs
  root := by
    have hc : fs'.current = fs.current := g.current.trans h.grows.current
    rw [← h.root, Destination.root, Destination.root, absolute, absolute, hc]
  prepares := Destination.prepare_of_leads (h.leads.grows g)
  grows := Grows.refl fs'
  leads := h.leads.grows g
  seen := rfl
  summary := rfl

section Reader

variable (h : Begins source destination fs names base s) (bytes : List UInt8) (ending : Ending)
  (schedule : Schedule)

include h

theorem reader :
    Begins (.reader bytes ending schedule) destination fs names base
      { s with input := { remaining := bytes, ending := ending, schedule := schedule } } :=
  h.reopen rfl

theorem again {new : Location → Node → Prop} (g : Grows new s.files fs') :
    Begins (.reader bytes ending schedule) destination fs' names base
      { files := fs'
        input := { remaining := bytes, ending := ending, schedule := schedule } } :=
  h.resume g rfl

end Reader

end Begins

namespace Completed

theorem of_append (h : x.Completed names base (es₁ ++ es₂) s u) :
    ∃ t, x.Completed names base es₁ s t ∧ x.Completed names base es₂ t u := by
  induction es₁ generalizing s with
  | nil => exact ⟨s, .nil s, h⟩
  | cons e es₁ ih =>
    cases h with
    | cons hc hes =>
      have ⟨t, h₁, h₂⟩ := ih hes
      exact ⟨t, .cons hc h₁, h₂⟩

theorem files_eq (h : x.Completed names base es s t) (h' : x.Completed names base es s' t')
    (hf : s'.files = s.files) : t'.files = t.files := by
  refine ext_node? (fun l => ?_) ?_ ?_
  · have he := h.exactly
    have he' := hf ▸ h'.exactly
    cases hn : s.files.node? l with
    | some node => rw [he.kept l node hn, he'.kept l node hn]
    | none =>
      ext node
      rw [he.added l node hn, he'.added l node hn]
  · rw [h'.grows.current, h.grows.current, hf]
  · rw [h'.grows.clock, h.grows.clock, hf]

theorem suits_rest (h : x.Completed names base es₁ s t)
    (ha : x.limits.Suits s.files names base ((es₁ ++ es₂).map (·.header))) :
    x.limits.Suits t.files names base (es₂.map (·.header)) := by
  rw [List.map_append] at ha
  have hpair := List.pairwise_append.mp ha.apart
  refine { ha.perm List.perm_append_comm |>.of_append with place := fun a hm => ?_ }
  apply h.hasPlace (ha.place a (List.mem_append_right _ hm))
  exact fun e he => hpair.2.2 _ (List.mem_map_of_mem he) a hm

theorem apart_of_suits {l : Limits} (h : x.Completed names base es₁ s t)
    (ha : l.Suits t.files names base (es₂.map (·.header))) :
    ∀ a ∈ es₁.map (·.header), ∀ b ∈ es₂.map (·.header), ¬ a.Blocks b ∧ ¬ b.Blocks a := by
  rw [List.forall_mem_map]
  intro e he b hb
  have hplace := ha.place b hb
  constructor
  case left =>
    intro hblocks
    have ⟨name, above, htrail⟩ := e.header.exists_trail_eq_cons
    have hfile := h.file he hblocks.1
    have hclear : IsClear t.files names base b.trail := by
      cases hplace with
      | directory _ hc | regular _ hc _ => exact hc
      | other hk => simpa [hk] using hblocks.2.1
    have ⟨_, hn⟩ := hclear name above (htrail ▸ hblocks.trail)
    rw [htrail, List.cons_append] at hfile
    simp [IsDirectory, hfile, Node.isDirectory] at hn
  case right =>
    intro hblocks
    have ⟨node, hn⟩ := h.node? he hblocks.2.1
    have hs : b.trail ++ base <:+ e.header.trail ++ base :=
      List.suffix_append_self_iff.mpr hblocks.trail
    cases hplace with
    | regular _ _ hfree => cases (node?_of_suffix hfree hs).symm.trans hn
    | directory hk | other hk => cases hk.symm.trans hblocks.1

end Completed

theorem HasEffect.summary_append (h : x.HasEffect names base (es₁ ++ es₂) fs fs' summary)
    (h₁ : x.HasEffect names base es₁ fs₁ fs₁' summary₁)
    (h₂ : x.HasEffect names base es₂ fs₂ fs₂' summary₂) :
    summary = summary₁ + summary₂ ∧ summary.bytesExtracted.toNat =
      summary₁.bytesExtracted.toNat + summary₂.bytesExtracted.toNat := by
  have hbytes : summary.bytesExtracted.toNat =
      summary₁.bytesExtracted.toNat + summary₂.bytesExtracted.toNat := by
    rw [h.bytesExtracted, h₁.bytesExtracted, h₂.bytesExtracted, List.map_append, List.sum_append]
  refine ⟨Summary.ext ?_ ?_ ?_ ?_, hbytes⟩
  · rw [h.filesWritten, List.countP_append, UInt64.ofNat_add, ← h₁.filesWritten, ← h₂.filesWritten]
    rfl
  · rw [h.directoriesCreated, List.countP_append, UInt64.ofNat_add, ← h₁.directoriesCreated,
      ← h₂.directoriesCreated]
    rfl
  · rw [h.entriesSkipped, List.countP_append, UInt64.ofNat_add, ← h₁.entriesSkipped,
      ← h₂.entriesSkipped]
    rfl
  · have hlt := summary.bytesExtracted.toNat_lt
    have hadd : (summary₁ + summary₂).bytesExtracted =
        summary₁.bytesExtracted + summary₂.bytesExtracted := rfl
    rw [hadd, ← UInt64.toNat_inj, UInt64.toNat_add, ← hbytes, Nat.mod_eq_of_lt hlt]

section Write

variable {entries₁ entries₂ : List Entry} {ending ending₁ ending₂ : Ending}
  {schedule schedule₁ schedule₂ : Schedule} (hx : x.Undisturbed)
  (h₁ : ∀ e ∈ entries₁, e.Storable) (h₂ : ∀ e ∈ entries₂, e.Storable)

include hx h₁ h₂

theorem extract_parts
    (h : x.extract (.reader (Archive.write (entries₁ ++ entries₂)) ending schedule) destination fs =
      .ok summary fs') :
    ∃ summary₁ fs₁ summary₂,
      x.extract (.reader (Archive.write entries₁) ending₁ schedule₁) destination fs =
        .ok summary₁ fs₁ ∧
      x.extract (.reader (Archive.write entries₂) ending₂ schedule₂) destination fs₁ =
        .ok summary₂ fs' ∧
      summary = summary₁ + summary₂ ∧ summary.bytesExtracted.toNat =
        summary₁.bytesExtracted.toNat + summary₂.bytesExtracted.toNat := by
  have ⟨hbounds, names, base, s, u, hb, hc, hsum, hfs⟩ :=
    extract_write_completed (List.forall_mem_append.mpr ⟨h₁, h₂⟩) h
  rw [List.map_append] at hc
  have ⟨t, hc₁, hc₂⟩ := hc.of_append
  have hsuits := hc.suits hb.seen hb.summary
  -- The first part begins as the whole does, and ends where the second part of it begins.
  have hb₁ := hb.reader (Archive.write entries₁) ending₁ schedule₁
  have hw₁ := Archive.holds_write ending₁ fun e he =>
    ⟨h₁ e he, hbounds e (List.mem_append_left _ he)⟩
  have ⟨t₁, hc₁', hrun₁⟩ := extract_of_suits hx hb₁ hw₁ (List.map_append ▸ hsuits).of_append
  have hfiles : t₁.files = t.files := hc₁.files_eq hc₁' rfl
  have hb₂ := hb.again (Archive.write entries₂) ending₂ schedule₂ (hfiles ▸ hc₁.grows)
  have hw₂ := Archive.holds_write ending₂ fun e he =>
    ⟨h₂ e he, hbounds e (List.mem_append_right _ he)⟩
  have ⟨t₂, hc₂', hrun₂⟩ := extract_of_suits hx hb₂ hw₂ (hfiles ▸ hc₁.suits_rest hsuits)
  refine ⟨t₁.summary, t₁.files, t₂.summary, hrun₁, ?_, ?_⟩
  · rw [hrun₂, hfs, hc₂.files_eq hc₂' hfiles]
  · have he := hc.hasEffect hb.seen hb.summary
    have he₁ := hc₁'.hasEffect hb₁.seen hb₁.summary
    have he₂ := hc₂'.hasEffect hb₂.seen hb₂.summary
    exact hsum ▸ he.summary_append he₁ he₂

theorem extract_joined
    (hrun₁ : x.extract (.reader (Archive.write entries₁) ending₁ schedule₁) destination fs =
      .ok summary₁ fs₁)
    (hrun₂ : x.extract (.reader (Archive.write entries₂) ending₂ schedule₂) destination fs₁ =
      .ok summary₂ fs₂)
    (hfiles : (entries₁ ++ entries₂).length ≤ x.limits.files.toNat)
    (htotal : ((entries₁ ++ entries₂).map (·.header.size.toNat)).sum ≤ x.limits.totalSize.toNat) :
    x.extract (.reader (Archive.write (entries₁ ++ entries₂)) ending schedule) destination fs =
      .ok (summary₁ + summary₂) fs₂ := by
  have ⟨hbounds₁, names, base, s₁, t₁, hb₁, hc₁, hsum₁, hfs₁⟩ := extract_write_completed h₁ hrun₁
  have ⟨hbounds₂, names', base', s₂, t₂, hb₂, hc₂, hsum₂, hfs₂⟩ := extract_write_completed h₂ hrun₂
  subst hfs₁
  -- The second extraction finds the destination as the first has left it.
  obtain ⟨rfl, rfl, rfl⟩ := (hb₁.again _ ending₂ schedule₂ hc₁.grows).unique hb₂
  have hbounds := List.forall_mem_append.mpr ⟨hbounds₁, hbounds₂⟩
  have hstorable := List.forall_mem_append.mpr ⟨h₁, h₂⟩
  have hw := Archive.holds_write ending fun e he => ⟨hstorable e he, hbounds e he⟩
  have hb := hb₁.reader (Archive.write (entries₁ ++ entries₂)) ending schedule
  have hsuits₁ := hc₁.suits hb₁.seen hb₁.summary
  have hsuits₂ := hc₂.suits hb₂.seen hb₂.summary
  have hsuits := hsuits₁.append hc₁.grows hsuits₂ (hc₁.apart_of_suits hsuits₂)
  rw [← List.map_append, ← List.map_append, List.length_map, List.length_map,
    Entry.sum_size_written hstorable] at hsuits
  have hsuits := hsuits hfiles htotal
  have ⟨t, hc, hrun⟩ := extract_of_suits hx hb hw hsuits
  rw [List.map_append] at hc
  have ⟨u, hc₁', hc₂'⟩ := hc.of_append
  have hfiles₁ : u.files = t₁.files := hc₁.files_eq hc₁' rfl
  have he := hc.hasEffect hb.seen hb.summary
  have he₁ := hc₁.hasEffect hb₁.seen hb₁.summary
  have he₂ := hc₂.hasEffect hb₂.seen hb₂.summary
  rw [hrun, hsum₁, hsum₂, hfs₂, (he.summary_append he₁ he₂).1, hc₂.files_eq hc₂' hfiles₁]

end Write

-- Either way the same is there afterwards, and the counters of the two extractions add up. In two
-- goes each part has the limits for itself, and in one go they share them.
theorem extract_append (limits : Limits) {entries₁ entries₂ : List Entry}
    (h₁ : ∀ e ∈ entries₁, e.Storable) (h₂ : ∀ e ∈ entries₂, e.Storable)
    (ending ending₁ ending₂ : Ending) (schedule schedule₁ schedule₂ : Schedule)
    (destination : Path) (fs : FileSystem) :
    let run (entries : List Entry) (ending : Ending) (schedule : Schedule) :=
      Extractor.extract { limits := limits } (.reader (Archive.write entries) ending schedule)
        destination
    (∀ summary fs', run (entries₁ ++ entries₂) ending schedule fs = .ok summary fs' →
      ∃ summary₁ fs₁ summary₂, run entries₁ ending₁ schedule₁ fs = .ok summary₁ fs₁ ∧
        run entries₂ ending₂ schedule₂ fs₁ = .ok summary₂ fs' ∧
        summary = summary₁ + summary₂ ∧ summary.bytesExtracted.toNat =
          summary₁.bytesExtracted.toNat + summary₂.bytesExtracted.toNat) ∧
    (∀ summary₁ fs₁ summary₂ fs₂, run entries₁ ending₁ schedule₁ fs = .ok summary₁ fs₁ →
      run entries₂ ending₂ schedule₂ fs₁ = .ok summary₂ fs₂ →
      (entries₁ ++ entries₂).length ≤ limits.files.toNat →
      ((entries₁ ++ entries₂).map (·.header.size.toNat)).sum ≤ limits.totalSize.toNat →
      run (entries₁ ++ entries₂) ending schedule fs = .ok (summary₁ + summary₂) fs₂) := by
  constructor
  case left => exact fun summary fs' h => extract_parts (.of_limits limits) h₁ h₂ h
  case right =>
    intro summary₁ fs₁ summary₂ fs₂ hrun₁ hrun₂ hfiles htotal
    exact extract_joined (.of_limits limits) h₁ h₂ hrun₁ hrun₂ hfiles htotal

end Extractor

theorem Extractor.extract_docs_then_nested :
    ∃ summary₁ fs₁ summary₂ fs₂,
      Extractor.extract {} (.reader (Archive.write [Entry.docs]) .finished Input.plainSchedule)
        ⟨"out"⟩ (FileSystem.root 0) = .ok summary₁ fs₁ ∧
      Extractor.extract {} (.reader (Archive.write [Entry.nested]) .broken Input.plainSchedule)
        ⟨"out"⟩ fs₁ = .ok summary₂ fs₂ ∧
      Extractor.extract {} (.reader (Archive.write [Entry.docs, Entry.nested]) .finished
        Input.plainSchedule) ⟨"out"⟩ (FileSystem.root 0) = .ok (summary₁ + summary₂) fs₂ := by
  have ⟨h₁, h₂⟩ := List.forall_mem_cons.mp Entry.storable_docs_nested
  have ⟨hparts, hjoined⟩ := extract_append {} (List.forall_mem_singleton.mpr h₁) h₂ .finished
    .finished .broken Input.plainSchedule Input.plainSchedule Input.plainSchedule ⟨"out"⟩
    (FileSystem.root 0)
  have ⟨summary, fs', h⟩ := extract_docs_nested .finished Input.plainSchedule
  have ⟨summary₁, fs₁, summary₂, hrun₁, hrun₂, _⟩ := hparts summary fs' h
  refine ⟨summary₁, fs₁, summary₂, fs', hrun₁, hrun₂, ?_⟩
  exact hjoined _ _ _ _ hrun₁ hrun₂ (by decide) (by decide)

end TarGuard
