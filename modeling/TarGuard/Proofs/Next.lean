import TarGuard.Extraction.Run
import TarGuard.Proofs.HeaderSize
import TarGuard.Proofs.Normal
import TarGuard.Proofs.Reading

namespace TarGuard

open FileSystem EntryPath Extraction

def ExtractError.refusals : List ExtractError :=
  [.invalidChecksum, .invalidHeader, .pathTraversal, .fileTooLarge, .archiveTooLarge, .linkDetected]

abbrev Header.trail (h : Header) : Location :=
  EntryPath.trail h.fullPath

theorem Header.trail_below (h : Header) (base : Location) :
    base <:+ h.trail ++ base ∧ h.trail ++ base ≠ base :=
  ⟨List.suffix_append h.trail base, by simpa using trail_ne_nil h.fullPath⟩

theorem Header.exists_trail_eq_cons (h : Header) : ∃ name above, h.trail = name :: above :=
  List.exists_cons_of_ne_nil (trail_ne_nil h.fullPath)

theorem Header.parent?_pathTo {h : Header} {names : List String}
    (ho : AllOrdinary (h.trail ++ names)) :
    (pathTo (h.trail ++ names)).parent? = some (pathTo (h.trail.tail ++ names)) := by
  have ⟨name, above, ht⟩ := h.exists_trail_eq_cons
  rw [ht, List.cons_append] at ho
  rw [ht, List.cons_append, List.tail_cons, FileSystem.parent?_pathTo ho]

namespace Extractor

def next (x : Extractor) (root : Path) : Extraction (Option (Header × Path)) := do
  x.checkCancelled
  match ← onInput Input.readRecord with
  | none => return none
  | some block => do
    let h ← require (Header.decode block x.limits.componentLength)
    x.enforceLimits h.size
    let target ← require (EntryPath.resolve x.limits root h.fullPath)
    return some (h, target)

variable {x : Extractor} {s t : Session} {root : List String} {h : Header}

theorem record_eq (x : Extractor) (root : Path) :
    x.record root = x.next root >>= fun o =>
      match o with
      | none => return false
      | some (h, target) => do
        x.dispatch root target h
        count fun s => { s with bytesExtracted := s.bytesExtracted + h.size }
        return true := by
  simp only [record, next, entry, bind_assoc]
  congr 1
  funext _
  congr 1
  funext o
  cases o with
  | none => simp
  | some block => simp

def NextHeader (x : Extractor) (s : Session) (h : Header) : Prop :=
  ∃ b input, Input.readRecord s.input = .ok (some b) input ∧
    Header.decode b x.limits.componentLength = .ok h

theorem NextHeader.unique {h' : Header} (hh : x.NextHeader s h) (hh' : x.NextHeader s h') :
    h = h' := by
  have ⟨b, input, hb, hd⟩ := hh
  have ⟨b', input', hb', hd'⟩ := hh'
  cases hb.symm.trans hb'
  exact Except.ok.inj (hd.symm.trans hd')

-- The next record has this header, and the extraction turns to its entry.
structure Begun (x : Extractor) (root : List String) (h : Header) (s t : Session) : Prop where
  header   : x.NextHeader s h
  checked  : x.limits.check (s.seen + 1) s.summary.bytesExtracted h.size = .ok ()
  resolved : resolve x.limits (pathTo root) h.fullPath = .ok (pathTo (h.trail ++ root))
  files    : t.files = s.files
  seen     : t.seen = s.seen + 1
  summary  : t.summary = s.summary
  delivers : ∃ b : Block, ¬ isZero b.bytes ∧
    Header.decode b x.limits.componentLength = .ok h ∧ s.input.Delivers b.bytes t.input

theorem Begun.paddedSize (hb : x.Begun root h s t) :
    h.paddedSize = .ok (h.size.toNat + (padding h.size).toNat) :=
  have ⟨_, _, hd, _⟩ := hb.delivers
  Header.paddedSize_of_decode hd

theorem checkCancelled_eq (x : Extractor) (s : Session) :
    x.checkCancelled s =
      if x.cancelAfter.any (· ≤ s.input.delivered) then .error .interrupted s else .ok () s := by
  unfold checkCancelled
  simp only [bind, EStateM.bind, get, getThe, MonadStateOf.get, get_apply]
  split <;> rfl

theorem checkCancelled_ends (x : Extractor) (s : Session) :
    Ends x.checkCancelled s (fun _ t => t = s) (fun e t => e = .interrupted ∧ t = s) := by
  unfold checkCancelled
  apply Ends.get_bind
  split
  · exact Ends.throw ⟨rfl, rfl⟩
  · exact Ends.pure rfl

theorem enforceLimits_ends (x : Extractor) (size : UInt64) (s : Session) :
    Ends (x.enforceLimits size) s
      (fun _ t => t = { s with seen := s.seen + 1 } ∧
        x.limits.check (s.seen + 1) s.summary.bytesExtracted size = .ok ())
      (fun e t => t = { s with seen := s.seen + 1 } ∧
        x.limits.check (s.seen + 1) s.summary.bytesExtracted size = .error e) :=
  Ends.modify_bind (Ends.get_bind (Ends.require (fun _ h => ⟨rfl, h⟩) fun _ h => ⟨rfl, h⟩))

theorem enforceLimits_of_check {size : UInt64}
    (hc : x.limits.check (s.seen + 1) s.summary.bytesExtracted size = .ok ()) :
    x.enforceLimits size s = .ok () { s with seen := s.seen + 1 } := by
  change require (x.limits.check (s.seen + 1) s.summary.bytesExtracted size) _ = _
  rw [hc]
  rfl

theorem next_ends (x : Extractor) (ho : AllOrdinary root) (s : Session) :
    Ends (x.next (pathTo root)) s
      (fun o t => match o with
        | some (h, target) => x.Begun root h s t ∧ target = pathTo (h.trail ++ root)
        | none => t.files = s.files ∧ t.summary = s.summary ∧
          (s.input.joints = [] → s.input.AtEnd))
      (fun _ t => t.files = s.files) := by
  refine (checkCancelled_ends x s).bind ?cancelled ?polled
  case cancelled => exact fun _ _ ht => ht.2 ▸ rfl
  case polled =>
    intro _ t ht
    subst ht
    refine (Ends.onInput (Ends.eq Input.readRecord t.input)).bind ?broken ?read
    case broken =>
      intro _ u ⟨input, _, hu⟩
      rw [hu]
    case read =>
      intro o u ⟨input, hb, hu⟩
      subst hu
      have hr := (Input.readRecord_ends t.input).of_ok hb
      cases o with
      | none => exact Ends.pure ⟨rfl, rfl, hr⟩
      | some b =>
        apply Ends.require_bind
        case hf => exact fun _ _ => rfl
        case hd =>
          intro h hdec
          refine (enforceLimits_ends x h.size { t with input := input }).bind ?refused ?checked
          case refused => exact fun _ _ ht => ht.1 ▸ rfl
          case checked =>
            intro _ u ⟨hu, hc⟩
            subst hu
            apply Ends.require_bind
            case hf => exact fun _ _ => rfl
            case hd =>
              intro target ht
              have ⟨_, he⟩ := eq_pathTo_of_resolve ho ht
              subst he
              refine Ends.pure ⟨?_, rfl⟩
              exact {
                header := ⟨b, input, hb, hdec⟩
                checked := hc
                resolved := ht
                files := rfl
                seen := rfl
                summary := rfl
                delivers := ⟨b, hr.1, hdec, hr.2⟩ }

end Extractor
end TarGuard
