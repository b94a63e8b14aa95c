import TarGuard.Archive
import TarGuard.Proofs.Extract

namespace TarGuard

namespace Archive

variable {bound : UInt64} {b : Block} {h : Header} {payload pad rest : List UInt8}

-- The entries of an archive, up to a zero block or to the end of its bytes. There is no answer if a
-- record is no header, or if the bytes end in the middle of an entry.
def entries? (bound : UInt64) (bytes : List UInt8) : Option (List Entry) :=
  if _h : bytes = [] then
    some []
  else do
    let b ← Block.ofList? (bytes.take 512)
    if isZero b.bytes then
      return []
    let h ← (Header.decode b bound).toOption
    let size := h.size.toNat
    let last := size + (padding h.size).toNat
    let bytes := bytes.drop 512
    if bytes.length < last then
      none
    return ⟨h, bytes.take size⟩ :: (← entries? bound (bytes.drop last))
termination_by bytes.length
decreasing_by
  have := List.length_pos_of_ne_nil _h
  simp only [List.length_drop]
  omega

theorem ofList?_take (b : Block) (rest : List UInt8) :
    Block.ofList? ((b.bytes ++ rest).take 512) = some b := by
  rw [List.take_left' b.size_eq, Block.ofList?, dif_pos b.size_eq]

theorem append_ne_nil (b : Block) (rest : List UInt8) : b.bytes ++ rest ≠ [] := fun he => by
  have := congrArg List.length he
  simp [b.size_eq] at this

theorem entries?_nil : entries? bound [] = some [] := by
  rw [entries?, dif_pos rfl]

theorem entries?_zero (hz : isZero b.bytes) : entries? bound (b.bytes ++ rest) = some [] := by
  rw [entries?, dif_neg (append_ne_nil b rest), ofList?_take]
  simp [hz]

theorem entries?_of_error {e : ExtractError} (hz : ¬ isZero b.bytes)
    (hd : Header.decode b bound = .error e) : entries? bound (b.bytes ++ rest) = none := by
  rw [entries?, dif_neg (append_ne_nil b rest), ofList?_take]
  simp only [Option.bind_eq_bind, Option.bind_some, if_neg hz, hd, Except.toOption,
    Option.bind_none]

theorem entries?_cons (hz : ¬ isZero b.bytes) (hd : Header.decode b bound = .ok h)
    (hs : payload.length = h.size.toNat) (hp : pad.length = (padding h.size).toNat) :
    entries? bound (b.bytes ++ payload ++ pad ++ rest) =
      (entries? bound rest).map (⟨h, payload⟩ :: ·) := by
  have hl : ¬ (payload ++ (pad ++ rest)).length < payload.length + pad.length := by
    simp only [List.length_append]
    omega
  have hdrop : (payload ++ (pad ++ rest)).drop (payload.length + pad.length) = rest := by
    rw [← List.append_assoc, List.drop_left' List.length_append]
  rw [List.append_assoc, List.append_assoc, entries?, dif_neg (append_ne_nil b _), ofList?_take]
  simp only [Option.bind_eq_bind, Option.bind_some, if_neg hz, hd, Except.toOption, ← hs, ← hp,
    List.drop_left' b.size_eq, if_neg hl, hdrop, List.take_left' rfl]
  cases entries? bound rest with
  | none => rfl
  | some es => rfl

end Archive

namespace Input

theorem of_peek {s t : Input} {wanted : Nat} {bytes : List UInt8}
    (h : s.peek wanted = .ok (bytes, t)) : t.joints = s.joints ∧ t.ending = s.ending := by
  fun_induction peek s wanted with
  | case1 s u hr ih =>
    have hj := s.joints_read wanted
    have he := s.ending_read wanted
    rw [hr] at hj he
    have ⟨h₁, h₂⟩ := ih h
    exact ⟨h₁.trans hj, h₂.trans he⟩
  | case2 => cases h
  | case3 =>
    cases h
    exact ⟨rfl, rfl⟩

theorem joints_of_openFile {fs : FileSystem} {p : Path} {s : Input} (h : openFile fs p = .ok s) :
    s.joints = [] := by
  unfold openFile at h
  split at h
  case h_1 f _ =>
    unfold detect at h
    cases hp : (ofBytes f.content .finished []).peek bufferSize with
    | error e => simp [hp, bind, Except.bind] at h
    | ok a =>
      have ⟨hj, he⟩ := of_peek hp
      simp only [hp, bind, Except.bind, pure, Except.pure] at h
      split at h <;> cases h
      · simp only [unpack, ofBytes, he]
        exact Gzip.joints_decode_finished _ _
      · exact hj
  case h_2 => cases h
  case h_3 => cases h

end Input

theorem Source.joints_of_open {source : Source} {fs : FileSystem} {s : Input}
    (h : source.open fs = .ok s) : s.joints = [] := by
  cases source with
  | reader =>
    cases h
    rfl
  | file archive => exact Input.joints_of_openFile h

namespace Extractor

variable {x : Extractor} {s t : Session} {base : Location} {root : List String} {es : List Entry}

theorem Completed.joints (h : x.Completed root base es s t) : t.input.joints = s.input.joints := by
  induction h with
  | nil => rfl
  | cons hc _ ih =>
    have ⟨_, _, _, _, _, hi⟩ := hc.delivers
    exact ih.trans hi.joints

theorem Completed.entries? (h : x.Completed root base es s t) (hj : s.input.joints = [])
    (hl : t.input.AtEnd) :
    Archive.entries? x.limits.componentLength s.input.remaining = some es := by
  induction h with
  | nil s =>
    rcases hl with ⟨hl, _⟩ | ⟨b, hz, rest, hr⟩
    · rw [hl, Archive.entries?_nil]
    · rw [← hr, Archive.entries?_zero hz]
  | cons hc _ ih =>
    have ⟨b, pad, hz, hd, hp, hi⟩ := hc.delivers
    rw [hi.remaining hj, Archive.entries?_cons hz hd hc.length hp, ih (hi.joints.trans hj) hl]
    rfl

end Extractor
end TarGuard
