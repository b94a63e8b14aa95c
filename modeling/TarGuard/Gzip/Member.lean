import TarGuard.Gzip.Checksum
import TarGuard.Gzip.Inflate
import TarGuard.Input.Basic

namespace TarGuard.Gzip

def magic : List UInt8 := [0x1f, 0x8b]

def littleEndian (bytes : List UInt8) : Nat :=
  bytes.foldr (fun b n => b.toNat + 256 * n) 0

def drop? (n : Nat) (bytes : List UInt8) : Option (List UInt8) :=
  match bytes.splitAt n with
  | (here, rest) => if here.length = n then some rest else none

def dropText? (room : Nat) : List UInt8 → Option (List UInt8)
  | [] => none
  | b :: rest =>
    if b = 0 then some rest
    else
      match room with
      | 0 => none
      | room + 1 => dropText? room rest

def maxTextLength : Nat := 65535

def dropExtra? : List UInt8 → Option (List UInt8)
  | a :: b :: rest => drop? (littleEndian [a, b]) rest
  | _ => none

def optionally (flag : Bool) (pass : List UInt8 → Option (List UInt8)) (bytes : List UInt8) :
    Option (List UInt8) :=
  if flag then pass bytes else some bytes

def dropHeaderCheck? (all : List UInt8) : List UInt8 → Option (List UInt8)
  | a :: b :: rest =>
    let header := all.take (all.length - (rest.length + 2))
    if (crc header).toNat % 65536 = littleEndian [a, b] then some rest else none
  | _ => none

def dropHeader? (all : List UInt8) : Option (List UInt8) :=
  match all with
  | 0x1f :: 0x8b :: 8 :: flags :: _ :: _ :: _ :: _ :: _ :: _ :: rest =>
    let flag (i : Nat) := flags.toNat.testBit i
    if flag 5 || flag 6 || flag 7 then none
    else
      optionally (flag 2) dropExtra? rest
        >>= optionally (flag 3) (dropText? maxTextLength)
        >>= optionally (flag 4) (dropText? maxTextLength)
        >>= optionally (flag 1) (dropHeaderCheck? all)
  | _ => none

def dropTrailer? (content : Array UInt8) : List UInt8 → Option (List UInt8)
  | a :: b :: c :: d :: e :: f :: g :: h :: rest =>
    if littleEndian [a, b, c, d] = (crc content.toList).toNat ∧
        littleEndian [e, f, g, h] = content.size % UInt32.size then
      some rest
    else
      none
  | _ => none

theorem length_drop? {n : Nat} {bytes rest : List UInt8} (h : drop? n bytes = some rest) :
    rest.length ≤ bytes.length := by
  simp only [drop?, List.splitAt_eq] at h
  split at h <;> cases h
  simp

theorem length_dropText? {room : Nat} {bytes rest : List UInt8}
    (h : dropText? room bytes = some rest) : rest.length ≤ bytes.length := by
  induction bytes generalizing room with
  | nil => simp [dropText?] at h
  | cons b bs ih =>
    unfold dropText? at h
    split at h
    · cases h; simp
    · split at h
      · cases h
      · exact Nat.le_succ_of_le (ih h)

theorem length_dropExtra? {bytes rest : List UInt8} (h : dropExtra? bytes = some rest) :
    rest.length ≤ bytes.length := by
  unfold dropExtra? at h
  split at h
  · have := length_drop? h
    simp only [List.length_cons]
    omega
  · cases h

theorem length_dropHeaderCheck? {all bytes rest : List UInt8}
    (h : dropHeaderCheck? all bytes = some rest) : rest.length ≤ bytes.length := by
  unfold dropHeaderCheck? at h
  split at h
  · dsimp only at h
    split at h <;> cases h
    simp only [List.length_cons]
    omega
  · cases h

theorem length_optionally {flag : Bool} {pass : List UInt8 → Option (List UInt8)}
    {bytes rest : List UInt8} (h : optionally flag pass bytes = some rest)
    (hp : ∀ {bs r}, pass bs = some r → r.length ≤ bs.length) : rest.length ≤ bytes.length := by
  unfold optionally at h
  split at h
  · exact hp h
  · cases h; exact Nat.le_refl _

theorem length_dropHeader? {all rest : List UInt8} (h : dropHeader? all = some rest) :
    rest.length < all.length := by
  unfold dropHeader? at h
  split at h
  · dsimp only at h
    split at h
    · cases h
    · simp only [Option.bind_eq_bind, Option.bind_eq_some_iff] at h
      obtain ⟨r₃, ⟨r₂, ⟨r₁, h₁, h₂⟩, h₃⟩, h₄⟩ := h
      have := length_optionally h₁ length_dropExtra?
      have := length_optionally h₂ length_dropText?
      have := length_optionally h₃ length_dropText?
      have := length_optionally h₄ length_dropHeaderCheck?
      simp only [List.length_cons]
      omega
  · cases h

theorem length_dropTrailer? {content : Array UInt8} {bytes rest : List UInt8}
    (h : dropTrailer? content bytes = some rest) : rest.length ≤ bytes.length := by
  unfold dropTrailer? at h
  split at h
  · split at h <;> cases h
    simp only [List.length_cons]
    omega
  · cases h

inductive MemberEnd
  -- The member is there, and this follows it.
  | complete (rest : List UInt8)
  -- The deflate data does not come to its end.
  | inData
  -- Nothing follows the deflate data.
  | afterData
  -- The header or the trailer is not right.
  | damaged
  deriving DecidableEq

def endOf (content : Array UInt8) (afterData : List UInt8) : MemberEnd :=
  if afterData = [] then .afterData
  else
    match dropTrailer? content afterData with
    | some rest => .complete rest
    | none => .damaged

def member (bytes : List UInt8) : Array UInt8 × MemberEnd :=
  match dropHeader? bytes with
  | none => (#[], .damaged)
  | some data =>
    match inflate (.ofBytes data) #[] with
    | (content, none) => (content, .inData)
    | (content, some s) => (content, endOf content s.rest)

theorem length_endOf {content : Array UInt8} {bytes rest : List UInt8}
    (h : endOf content bytes = .complete rest) : rest.length ≤ bytes.length := by
  unfold endOf at h
  split at h
  · cases h
  · split at h
    · next ht =>
      cases h
      exact length_dropTrailer? ht
    · cases h

theorem length_member {bytes rest : List UInt8} {content : Array UInt8}
    (h : member bytes = (content, .complete rest)) : rest.length < bytes.length := by
  unfold member at h
  split at h
  · cases h
  · next data hd =>
    have hd := length_dropHeader? hd
    split at h
    · cases h
    · next c s hi =>
      have hi := left_of_inflate hi
      have ht := length_endOf (Prod.mk.inj h).2
      have := s.length_rest
      rw [Bits.left_ofBytes] at hi
      omega

end TarGuard.Gzip
