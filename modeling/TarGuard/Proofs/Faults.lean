import TarGuard.Proofs.Record
import TarGuard.Proofs.Supply

namespace TarGuard

open FileSystem SecureDirectory OutputFile EntryPath Extraction

def ExtractError.faults : List ExtractError :=
  [.openFailed, .readFailed, .invalidHeader, .invalidChecksum]

theorem OutputFile.Failure.not_mem_faults (failure : Failure) :
    failure.error ∉ ExtractError.faults := by
  rcases failure.error_eq with he | he <;> rw [he] <;> decide

theorem Limits.not_mem_faults_of_check {l : Limits} {seen used size : UInt64} {e : ExtractError}
    (h : l.check seen used size = .error e) : e ∉ ExtractError.faults := by
  unfold check at h
  split at h
  · cases h
    decide
  split at h
  · cases h
    decide
  split at h <;> cases h
  decide

theorem EntryPath.not_mem_faults_of_resolve {limits : Limits} {root : Path} {path : String}
    {e : ExtractError} (h : resolve limits root path = .error e) : e ∉ ExtractError.faults := by
  have hp : e = .pathTraversal := by
    unfold resolve components checkBelow at h
    split at h
    case isFalse => cases h; rfl
    case isTrue =>
      simp only [bind, Except.bind] at h
      split at h
      · split at * <;> simp_all
      · cases h
  rw [hp]
  decide

namespace Extractor

variable {x : Extractor} {s : Session} {base : Location} {names : List String} {h : Header}
  {bytes payload pad rest : List UInt8} {ending : Ending} {file : OutputFile}

theorem checkCancelled_of_none (hx : x.cancelAfter = none) (s : Session) :
    x.checkCancelled s = .ok () s := by
  simp only [checkCancelled, hx, Option.any_none]
  rfl

theorem copyChunk_supplied (hx : x.cancelAfter = none) {left : Nat} (hn : left ≠ 0)
    (hs : s.input.Supplies (bytes ++ rest) ending) (hl : bytes.length = min left chunkSize) :
    Ends (x.copyChunk file left) s (fun _ t => t.input.Supplies rest ending)
      (fun e _ => e ∉ ExtractError.faults) := by
  have hpos : 0 < min left chunkSize := by
    simp only [chunkSize]
    omega
  obtain ⟨input, hc, hi⟩ := hs.readChunk hl hpos
  refine .bind_ok (checkCancelled_of_none hx s) (.bind_ok (onInput_of_ok hc) ?_)
  refine (Ends.onOutput (write_ends _ file bytes s.files)).imp ?_ ?_
  · rintro _ _ ⟨_, -, rfl⟩
    exact hi
  · rintro e _ ⟨_, ⟨failure, -, -, -, rfl⟩, -⟩
    exact failure.not_mem_faults

theorem copyPayload_supplied (hx : x.cancelAfter = none) (left : Nat)
    (hs : s.input.Supplies (bytes ++ rest) ending) (hl : bytes.length = left) :
    Ends (x.copyPayload file left) s (fun _ t => t.input.Supplies rest ending)
      (fun e _ => e ∉ ExtractError.faults) := by
  induction left using copyPayload.induct generalizing s bytes with
  | case1 =>
    have hb : bytes = [] := List.eq_nil_of_length_eq_zero hl
    rw [copyPayload_zero]
    exact Ends.pure (by simpa [hb] using hs)
  | case2 left hz ih =>
    -- The next chunk is there, and so is what comes after it.
    have hlen : (bytes.take chunkSize).length = min left chunkSize := by
      rw [List.length_take, hl, Nat.min_comm]
    have hrest : (bytes.drop chunkSize).length = left - chunkSize := by
      rw [List.length_drop, hl]
    rw [← List.take_append_drop chunkSize bytes, List.append_assoc] at hs
    rw [copyPayload_eq hz]
    refine (copyChunk_supplied hx hz hs hlen).bind (fun _ _ h => h) ?_
    exact fun _ t ht => ih ht hrest

theorem fillFile_supplied (hx : x.cancelAfter = none) (size : UInt64)
    (hs : s.input.Supplies (payload ++ pad ++ rest) ending) (hl : payload.length = size.toNat)
    (hp : pad.length = (padding size).toNat) :
    Ends (x.fillFile file size) s (fun _ t => t.input.Supplies rest ending)
      (fun e _ => e ∉ ExtractError.faults) := by
  rw [List.append_assoc] at hs
  refine (copyPayload_supplied hx _ hs hl).bind (fun _ _ h => h) fun _ t ht => ?_
  have ⟨input, hskip, hi⟩ := ht.skip hp
  exact Ends.of_eq (onInput_of_ok hskip) hi

theorem writeFile_fed {name : String} {above : List String} {size : UInt64}
    (hx : x.cancelAfter = none) (hl : s.files.Leads names base) (ho : AllOrdinary (name :: above))
    (hz : ∀ n ∈ name :: above, '\x00' ∉ n.toList)
    (hs : s.input.Supplies (payload ++ pad ++ rest) ending)
    (hb : payload.length = size.toNat) (hp : pad.length = (padding size).toNat) :
    Ends (x.writeFile (pathTo names) (pathTo (name :: (above ++ names))) size) s (fun _ _ => True)
      (fun e _ => e ∉ ExtractError.faults) := by
  rcases writeFile_cases hl ho hz _ size with ⟨e, files, _, he, hw⟩ | ⟨files, _, _, _, _, hw⟩
  · refine Ends.of_eq_error (hw x rfl) ?_
    rcases he with ⟨rfl, _⟩ | rfl | rfl | rfl
    all_goals decide
  · rw [Ends, hw x rfl, ← Ends]
    refine Ends.withCleanUp (Ends.imp (fillFile_supplied hx size hs hb hp) ?_ ?_)
    · exact fun _ _ _ => trivial
    · exact fun _ _ h => h

-- Where all bytes of an entry are there, none of its errors lies in the archive.
section Fed

variable (hl : s.files.Leads names base) (ho : AllOrdinary h.trail)
  (hz : ∀ n ∈ h.trail, '\x00' ∉ n.toList)
  (hs : s.input.Supplies (payload ++ pad ++ rest) ending)
  (hb : payload.length = h.size.toNat) (hp : pad.length = (padding h.size).toNat)

include hs hb hp in
theorem skipPayload_fed (hn : h.paddedSize = .ok (h.size.toNat + (padding h.size).toNat)) :
    Ends (onInput (Input.skipPayload h)) s (fun _ _ => True)
      (fun e _ => e ∉ ExtractError.faults) := by
  have ⟨input, hskip, _⟩ := hs.skipPayload hn hb hp
  exact Ends.of_eq (onInput_of_ok hskip) trivial

include hl ho hs hb hp in
theorem dispatch_directory_fed (hk : h.kind = .directory)
    (hn : h.paddedSize = .ok (h.size.toNat + (padding h.size).toNat)) :
    Ends (x.dispatch (pathTo names) (pathTo (h.trail ++ names)) h) s
      (fun _ _ => True) (fun e _ => e ∉ ExtractError.faults) := by
  rw [dispatch_directory hk]
  refine (Ends.onFiles (make_ends hl ho)).bind ?stopped ?made
  case stopped =>
    rintro e _ ⟨_, ⟨_, ⟨rfl, _⟩ | rfl⟩, _⟩
    · decide
    · decide
  case made =>
    rintro _ _ ⟨files, -, rfl⟩
    refine (skipPayload_fed (s := { s with files := files }) hs hb hp hn).bind
      (fun _ _ h => h) fun _ _ _ => ?_
    exact Ends.modify trivial

include hl ho hz hs hb hp in
theorem dispatch_regular_fed (hx : x.cancelAfter = none) (hk : h.kind = .regular) :
    Ends (x.dispatch (pathTo names) (pathTo (h.trail ++ names)) h) s (fun _ _ => True)
      (fun e _ => e ∉ ExtractError.faults) := by
  obtain ⟨name, above, ht⟩ := h.exists_trail_eq_cons
  rw [ht] at ho hz
  rw [dispatch_regular hk, ht]
  refine (writeFile_fed hx hl ho hz hs hb hp).bind (fun _ _ he => he) fun _ _ _ => ?_
  exact Ends.modify trivial

include hs hb hp in
theorem dispatch_other_fed {flag : UInt8} (hk : h.kind = .other flag)
    (hn : h.paddedSize = .ok (h.size.toNat + (padding h.size).toNat)) {p target : Path} :
    Ends (x.dispatch p target h) s (fun _ _ => True)
      (fun e _ => e ∉ ExtractError.faults) := by
  rw [dispatch_other hk]
  refine (skipPayload_fed hs hb hp hn).bind (fun _ _ h => h) fun _ _ _ => ?_
  exact Ends.modify trivial

include hl ho hz hs hb hp in
theorem dispatch_fed (hx : x.cancelAfter = none)
    (hn : h.paddedSize = .ok (h.size.toNat + (padding h.size).toNat)) :
    Ends (x.dispatch (pathTo names) (pathTo (h.trail ++ names)) h) s
      (fun _ _ => True) (fun e _ => e ∉ ExtractError.faults) := by
  cases hk : h.kind with
  | directory => exact dispatch_directory_fed hl ho hs hb hp hk hn
  | regular => exact dispatch_regular_fed hl ho hz hs hb hp hx hk
  | hardLink =>
    rw [dispatch_link (.inl hk)]
    exact Ends.throw (by decide)
  | symbolicLink =>
    rw [dispatch_link (.inr hk)]
    exact Ends.throw (by decide)
  | other => exact dispatch_other_fed hs hb hp hk hn

end Fed

theorem next_of_readRecord {b : Block} {input : Input} (hpoll : x.checkCancelled s = .ok () s)
    (hread : Input.readRecord s.input = .ok (some b) input)
    (hd : Header.decode b x.limits.componentLength = .ok h) (root : Path) :
    x.next root s = (do
      x.enforceLimits h.size
      let target ← require (resolve x.limits root h.fullPath)
      return some (h, target)) { s with input := input } := by
  rw [next, bind_of_ok hpoll, bind_of_ok (onInput_of_ok hread)]
  simp only [hd, require, pure_bind]

section Record

variable {b : Block} (hx : x.cancelAfter = none)
  (hs : s.input.Supplies (b.bytes ++ bytes) ending) (hz : ¬ isZero b.bytes)
  (hd : Header.decode b x.limits.componentLength = .ok h)

include hx hs hz hd

theorem next_of_supplies (root : Path) :
    ∃ input, input.Supplies bytes ending ∧
      x.next root s = (do
        x.enforceLimits h.size
        let target ← require (resolve x.limits root h.fullPath)
        return some (h, target)) { s with input := input } := by
  have ⟨input, hread, hi⟩ := hs.readRecord hz
  exact ⟨input, hi, next_of_readRecord (checkCancelled_of_none hx s) hread hd root⟩

theorem record_fed (hl : s.files.Leads names base) (hbytes : bytes = payload ++ pad ++ rest)
    (hb : payload.length = h.size.toNat) (hp : pad.length = (padding h.size).toNat) :
    Ends (x.record (pathTo names)) s (fun more _ => more = true)
      (fun e _ => e ∉ ExtractError.faults) := by
  have ⟨input, hi, hnext⟩ := next_of_supplies hx hs hz hd (pathTo names)
  have hbegun : Ends (x.next (pathTo names)) s
      (fun o t => o = some (h, pathTo (h.trail ++ names)) ∧ Accepted x.limits h.fullPath ∧
        t.files = s.files ∧ t.input = input)
      (fun e _ => e ∉ ExtractError.faults) := by
    rw [Ends, hnext, ← Ends]
    refine (enforceLimits_ends x h.size _).bind ?refused ?checked
    case refused => exact fun _ _ he => Limits.not_mem_faults_of_check he.2
    case checked =>
      rintro _ _ ⟨rfl, -⟩
      refine Ends.require_bind (fun target hr => ?_) fun _ => not_mem_faults_of_resolve
      obtain ⟨_, htarget⟩ := eq_pathTo_of_resolve hl.ordinary hr
      exact Ends.pure ⟨htarget ▸ rfl, accepted_of_resolve (htarget ▸ hr), rfl, rfl⟩
  rw [record_eq]
  refine hbegun.bind (fun _ _ he => he) ?_
  rintro _ t ⟨rfl, ha, hf, rfl⟩
  have hdispatch := dispatch_fed (hf ▸ hl) ha.allOrdinary ha.no_nul (hbytes ▸ hi) hb hp hx
    (Header.paddedSize_of_decode hd)
  exact hdispatch.bind (fun _ _ he => he) fun _ _ _ => Ends.modify_bind (Ends.pure rfl)

end Record

end Extractor
end TarGuard
