import TarGuard.Proofs.Below
import TarGuard.Proofs.Clearance
import TarGuard.Proofs.Faults
import TarGuard.Proofs.Limits

namespace TarGuard

open FileSystem SecureDirectory OutputFile EntryPath Extraction

theorem Limits.check_of_allows {l : Limits} {seen used size : UInt64} (h : l.Allows seen used size)
    (hu : used ≤ l.totalSize) : l.check seen used size = .ok () := by
  have hleft : ¬ size > l.left used := by
    have := h.totalSize hu
    rw [left, if_pos hu, gt_iff_lt, UInt64.not_lt, UInt64.le_iff_toNat_le,
      UInt64.toNat_sub_of_le _ _ hu]
    omega
  rw [check, if_neg (UInt64.not_lt.mpr h.files), if_neg (UInt64.not_lt.mpr h.fileSize),
    if_neg hleft]

namespace Extractor

variable {x : Extractor} {s t : Session} {base : Location} {names : List String} {h : Header}
  {bytes payload pad rest : List UInt8} {ending : Ending} {file : OutputFile}

-- Neither is the extraction to stop, nor does the system fail it.
structure Undisturbed (x : Extractor) : Prop where
  uncancelled : x.cancelAfter = none
  unfailing   : ∀ n, x.failure? n = none

theorem Undisturbed.of_limits (limits : Limits) : Undisturbed { limits := limits } :=
  ⟨rfl, fun _ => rfl⟩

theorem Undisturbed.onOutput_eq (hx : x.Undisturbed)
    (call : Option Failure → EStateM ExtractError FileSystem α) :
    x.onOutput call = onFiles (call none) := by
  funext s
  exact congrArg (fun failure? => onFiles (call failure?) s) (hx.unfailing _)

theorem copyChunk_undisturbed (hx : x.Undisturbed) (left : Nat) (s : Session) :
    Ends (x.copyChunk file left) s (fun _ _ => True) (fun e _ => e = .readFailed) := by
  refine .bind_ok (checkCancelled_of_none hx.uncancelled s) ?_
  refine (Ends.onInput (Input.readChunk_ends _ s.input)).bind ?_ fun _ _ _ => ?_
  · exact fun _ _ ⟨_, he, _⟩ => he
  · rw [hx.onOutput_eq]
    exact Ends.onFiles_modify trivial

theorem copyPayload_undisturbed (hx : x.Undisturbed) (left : Nat) (s : Session) :
    Ends (x.copyPayload file left) s (fun _ _ => True) (fun e _ => e = .readFailed) := by
  induction left using copyPayload.induct generalizing s with
  | case1 =>
    rw [copyPayload_zero]
    exact Ends.pure trivial
  | case2 left hz ih =>
    rw [copyPayload_eq hz]
    exact (copyChunk_undisturbed hx left s).bind (fun _ _ he => he) fun _ t _ => ih t

theorem fillFile_undisturbed (hx : x.Undisturbed) (size : UInt64) (s : Session) :
    Ends (x.fillFile file size) s (fun _ _ => True) (fun e _ => e = .readFailed) := by
  refine (copyPayload_undisturbed hx _ s).bind (fun _ _ he => he) fun _ t _ => ?_
  exact (Ends.onInput (Input.skip_ends _ t.input)).imp (fun _ _ _ => trivial)
    fun _ _ ⟨_, he, _⟩ => he

inductive HasPlace (fs : FileSystem) (names : List String) (base : Location) (h : Header) : Prop
  | directory : h.kind = .directory → IsClear fs names base h.trail → HasPlace fs names base h
  | regular : h.kind = .regular → IsClear fs names base h.trail →
    fs.node? (h.trail ++ base) = none → HasPlace fs names base h
  | other {flag} : h.kind = .other flag → HasPlace fs names base h

-- Where nothing is in the way of an entry, only the stream can fail.
section Placed

theorem writeFile_placed {name : String} {above : List String} (hx : x.Undisturbed)
    (hl : s.files.Leads names base) (ho : AllOrdinary (name :: above))
    (hz : ∀ n ∈ name :: above, '\x00' ∉ n.toList) (size : UInt64)
    (hc : IsClear s.files names base (name :: above))
    (hn : s.files.node? (name :: (above ++ base)) = none) :
    Ends (x.writeFile (pathTo names) (pathTo (name :: (above ++ names))) size) s (fun _ _ => True)
      (fun e _ => e = .readFailed) := by
  have hza : ∀ n ∈ above, '\x00' ∉ n.toList := fun n hm => hz n (List.mem_cons_of_mem _ hm)
  have hmade := ((make_clear hl ho.tail hza hc.tail).and (make_ends hl ho.tail)).imp
    (fun _ _ h => h.2) (fun _ _ h => h.1)
  rw [writeFile, makeParent_cons ((ho.tail.append hl.ordinary).cons ho.head)]
  refine hmade.onFiles_of_safe.bind (fun _ _ h => h.elim) ?_
  rintro _ _ ⟨files, ⟨g, hleads⟩, rfl⟩
  -- The directories above the file do not stand in its place.
  have hfree : files.node? (name :: (above ++ base)) = none := by
    cases hnode : files.node? (name :: (above ++ base)) with
    | none => rfl
    | some node =>
      have htrail : IsOnTrail base (name :: above).tail _ node := g.added hn hnode
      exact absurd rfl (htrail.ne_of_tail (List.cons_ne_nil name above))
  have hcreated := create_clear hleads ho.head (hz name List.mem_cons_self)
    (hc name above List.suffix_rfl).1 hfree
  rw [hx.onOutput_eq]
  refine hcreated.onFiles_of_safe.bind (fun _ _ h => h.elim) fun file t _ => ?_
  exact Ends.withCleanUp (fillFile_undisturbed hx size t)

variable (hl : s.files.Leads names base) (ho : AllOrdinary h.trail)
  (hz : ∀ n ∈ h.trail, '\x00' ∉ n.toList)

include hl ho hz in
theorem dispatch_directory_placed (hk : h.kind = .directory)
    (hn : h.paddedSize = .ok (h.size.toNat + (padding h.size).toNat))
    (hc : IsClear s.files names base h.trail) :
    Ends (x.dispatch (pathTo names) (pathTo (h.trail ++ names)) h) s (fun _ _ => True)
      (fun e _ => e = .readFailed) := by
  rw [dispatch_directory hk]
  refine (make_clear hl ho hz hc).onFiles_of_safe.bind (fun _ _ h => h.elim) fun _ t _ => ?_
  refine (Ends.onInput (skipPayload_ends hn t.input)).bind ?_ fun _ _ _ => Ends.modify trivial
  exact fun _ _ ⟨_, he, _⟩ => he

include hl ho hz in
theorem dispatch_regular_placed (hx : x.Undisturbed) (hk : h.kind = .regular)
    (hc : IsClear s.files names base h.trail) (hn : s.files.node? (h.trail ++ base) = none) :
    Ends (x.dispatch (pathTo names) (pathTo (h.trail ++ names)) h) s (fun _ _ => True)
      (fun e _ => e = .readFailed) := by
  obtain ⟨name, above, ht⟩ := h.exists_trail_eq_cons
  rw [ht] at ho hz hc hn
  rw [dispatch_regular hk, ht]
  refine (writeFile_placed hx hl ho hz h.size hc hn).bind (fun _ _ he => he) fun _ _ _ => ?_
  exact Ends.modify trivial

theorem dispatch_other_placed {flag : UInt8} (hk : h.kind = .other flag)
    (hn : h.paddedSize = .ok (h.size.toNat + (padding h.size).toNat)) {p target : Path} :
    Ends (x.dispatch p target h) s (fun _ _ => True) (fun e _ => e = .readFailed) := by
  rw [dispatch_other hk]
  refine (Ends.onInput (skipPayload_ends hn s.input)).bind ?_ fun _ _ _ => Ends.modify trivial
  exact fun _ _ ⟨_, he, _⟩ => he

include hl ho hz in
theorem dispatch_placed (hx : x.Undisturbed)
    (hn : h.paddedSize = .ok (h.size.toNat + (padding h.size).toNat))
    (hplace : HasPlace s.files names base h) :
    Ends (x.dispatch (pathTo names) (pathTo (h.trail ++ names)) h) s (fun _ _ => True)
      (fun e _ => e = .readFailed) := by
  cases hplace with
  | directory hk hc => exact dispatch_directory_placed hl ho hz hk hn hc
  | regular hk hc hfree => exact dispatch_regular_placed hl ho hz hx hk hc hfree
  | other hk => exact dispatch_other_placed hk hn

end Placed

section Record

variable {b : Block} (hx : x.Undisturbed)
  (hs : s.input.Supplies (b.bytes ++ bytes) ending) (hz : ¬ isZero b.bytes)
  (hd : Header.decode b x.limits.componentLength = .ok h)

include hx hs hz hd

theorem record_placed (hl : s.files.Leads names base)
    (hc : x.limits.check (s.seen + 1) s.summary.bytesExtracted h.size = .ok ())
    (hr : resolve x.limits (pathTo names) h.fullPath = .ok (pathTo (h.trail ++ names)))
    (hplace : HasPlace s.files names base h) :
    Ends (x.record (pathTo names)) s (fun more _ => more = true)
      (fun e _ => e = .readFailed) := by
  have ⟨input, _, hnext⟩ := next_of_supplies hx.uncancelled hs hz hd (pathTo names)
  have ha := accepted_of_resolve hr
  have hlimits := enforceLimits_of_check (s := { s with input := input }) hc
  rw [bind_of_ok hlimits, hr] at hnext
  have hdispatch := dispatch_placed (s := { s with input := input, seen := s.seen + 1 }) hl
    ha.allOrdinary ha.no_nul hx (Header.paddedSize_of_decode hd) hplace
  rw [record_eq]
  refine Ends.bind_ok hnext (hdispatch.bind (fun _ _ he => he) fun _ _ _ => ?_)
  exact Ends.modify_bind (Ends.pure rfl)

omit hx hz in
theorem Completes.of_supplies {e : Entry} (hc : x.Completes names base e s t) :
    e.header = h ∧ ∃ pad rest, pad.length = (padding h.size).toNat ∧
      bytes = e.payload ++ pad ++ rest ∧ t.input.Supplies rest ending := by
  have ⟨b', pad, _, hd', hp, hi⟩ := hc.delivers
  have hrem := hs.remaining.symm.trans (hi.remaining hs.joints)
  rw [List.append_assoc, List.append_assoc] at hrem
  have ⟨hb, hbytes⟩ := List.append_inj hrem (b.size_eq.trans b'.size_eq.symm)
  have hblock : b = b' := Block.ext hb
  subst hblock
  have hh : h = e.header := Except.ok.inj (hd.symm.trans hd')
  subst hh
  refine ⟨rfl, pad, t.input.remaining, hp, ?_, hi.joints.trans hs.joints, rfl,
    hi.ending.trans hs.ending⟩
  rw [hbytes, List.append_assoc]

omit hx hz in
theorem Completes.eq_of_supplies {e : Entry} (hc : x.Completes names base e s t)
    (hbytes : bytes = payload ++ pad ++ rest) (hb : payload.length = h.size.toNat)
    (hp : pad.length = (padding h.size).toNat) :
    e = ⟨h, payload⟩ ∧ t.input.Supplies rest ending := by
  obtain ⟨rfl, pad', rest', hp', hbytes', hrest⟩ := hc.of_supplies hs hd
  rw [hbytes, List.append_assoc, List.append_assoc] at hbytes'
  have ⟨hpayload, hbytes'⟩ := List.append_inj hbytes' (hb.trans hc.length.symm)
  have ⟨_, hrest'⟩ := List.append_inj hbytes' (hp.trans hp'.symm)
  exact ⟨hpayload ▸ rfl, hrest' ▸ hrest⟩

theorem record_supplied (hl : s.files.Leads names base)
    (hc : x.limits.check (s.seen + 1) s.summary.bytesExtracted h.size = .ok ())
    (hr : resolve x.limits (pathTo names) h.fullPath = .ok (pathTo (h.trail ++ names)))
    (hplace : HasPlace s.files names base h) (hbytes : bytes = payload ++ pad ++ rest)
    (hb : payload.length = h.size.toNat) (hp : pad.length = (padding h.size).toNat) :
    ∃ t, x.record (pathTo names) s = .ok true t ∧ x.Completes names base ⟨h, payload⟩ s t ∧
      t.input.Supplies rest ending := by
  have hfed := record_fed hx.uncancelled hs hz hd hl hbytes hb hp
  have hplaced := record_placed hx hs hz hd hl hc hr hplace
  cases ht : x.record (pathTo names) s with
  | error e t => exact absurd (hplaced.of_error ht ▸ hfed.of_error ht) (by decide)
  | ok more t =>
    cases hfed.of_ok ht
    have ⟨e, he⟩ := (record_ends x hl).of_ok ht
    have ⟨heq, hrest⟩ := he.eq_of_supplies hs hd hbytes hb hp
    exact ⟨t, rfl, heq ▸ he, hrest⟩

theorem record_starved (hl : s.files.Leads names base)
    (hc : x.limits.check (s.seen + 1) s.summary.bytesExtracted h.size = .ok ())
    (hr : resolve x.limits (pathTo names) h.fullPath = .ok (pathTo (h.trail ++ names)))
    (hplace : HasPlace s.files names base h)
    (hn : bytes.length < h.size.toNat + (padding h.size).toNat) :
    ∃ t, x.record (pathTo names) s = .error .readFailed t := by
  have hplaced := record_placed hx hs hz hd hl hc hr hplace
  cases ht : x.record (pathTo names) s with
  | error e t => exact ⟨t, hplaced.of_error ht ▸ rfl⟩
  | ok more t =>
    cases hplaced.of_ok ht
    have ⟨e, he⟩ := (record_ends x hl).of_ok ht
    obtain ⟨rfl, pad, rest, hp, hbytes, _⟩ := he.of_supplies hs hd
    have hlen := he.length
    rw [hbytes, List.length_append, List.length_append] at hn
    omega

end Record

theorem record_ended (root : Path) (hx : x.cancelAfter = none)
    (h : ∃ input, Input.readRecord s.input = .ok none input) :
    ∃ t, x.record root s = .ok false t := by
  have ⟨input, hread⟩ := h
  refine ⟨{ s with input := input }, ?_⟩
  rw [record, bind_of_ok (checkCancelled_of_none hx s), bind_of_ok (onInput_of_ok hread)]
  rfl

end Extractor
end TarGuard
