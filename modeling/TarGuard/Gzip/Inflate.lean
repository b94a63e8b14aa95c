import TarGuard.Gzip.Huffman

namespace TarGuard.Gzip

-- What was put out, and where reading goes on, unless there is a fault.
abbrev Output := Array UInt8 × Option Bits

def lengthTable : Array (Nat × Nat) := #[
  (3, 0), (4, 0), (5, 0), (6, 0), (7, 0), (8, 0), (9, 0), (10, 0), (11, 1), (13, 1), (15, 1),
  (17, 1), (19, 2), (23, 2), (27, 2), (31, 2), (35, 3), (43, 3), (51, 3), (59, 3), (67, 4),
  (83, 4), (99, 4), (115, 4), (131, 5), (163, 5), (195, 5), (227, 5), (258, 0)]

def distanceTable : Array (Nat × Nat) := #[
  (1, 0), (2, 0), (3, 0), (4, 0), (5, 1), (7, 1), (9, 2), (13, 2), (17, 3), (25, 3), (33, 4),
  (49, 4), (65, 5), (97, 5), (129, 6), (193, 6), (257, 7), (385, 7), (513, 8), (769, 8),
  (1025, 9), (1537, 9), (2049, 10), (3073, 10), (4097, 11), (6145, 11), (8193, 12), (12289, 12),
  (16385, 13), (24577, 13)]

def tableValue? (table : Array (Nat × Nat)) (i : Nat) (s : Bits) : Option (Nat × Bits) := do
  let (base, extra) ← table[i]?
  let (n, s) ← s.number? extra
  return (base + n, s)

theorem left_of_tableValue? {table : Array (Nat × Nat)} {i v : Nat} {s t : Bits}
    (h : tableValue? table i s = some (v, t)) : t.left ≤ s.left := by
  simp only [tableValue?, Option.bind_eq_bind, Option.bind_eq_some_iff] at h
  obtain ⟨_, -, ⟨_, _⟩, hu, h⟩ := h
  cases h
  exact Bits.left_of_number? hu

structure Codes where
  literals : Code
  distances : Code

inductive Token
  | literal (b : UInt8)
  | copy (length distance : Nat)
  | blockEnd

def token? (c : Codes) (s : Bits) : Option (Token × Bits) := do
  let (symbol, s) ← c.literals.symbol? s
  if symbol < 256 then
    return (.literal (.ofNat symbol), s)
  else if symbol = 256 then
    return (.blockEnd, s)
  else
    let (length, s) ← tableValue? lengthTable (symbol - 257) s
    let (i, s) ← c.distances.symbol? s
    let (distance, s) ← tableValue? distanceTable i s
    return (.copy length distance, s)

theorem left_of_token? {c : Codes} {v : Token} {s t : Bits} (h : token? c s = some (v, t)) :
    t.left < s.left := by
  simp only [token?, Option.bind_eq_bind, Option.bind_eq_some_iff] at h
  obtain ⟨⟨symbol, u⟩, hs, h⟩ := h
  have hs := Code.left_of_symbol? hs
  dsimp only at h
  split at h
  · cases h; exact hs
  · split at h
    · cases h; exact hs
    · simp only [Option.bind_eq_some_iff] at h
      obtain ⟨⟨_, _⟩, h₁, ⟨_, _⟩, h₂, ⟨_, _⟩, h₃, h⟩ := h
      cases h
      have h₁ := left_of_tableValue? h₁
      have h₂ := Code.left_of_symbol? h₂
      have h₃ := left_of_tableValue? h₃
      dsimp only at *
      omega

-- Zeros stand before all output.
def byteBefore (out : Array UInt8) (distance : Nat) : UInt8 :=
  if distance ≤ out.size then out.getD (out.size - distance) 0 else 0

-- Appends bytes that stand `distance` before the end. They may overlap with what they append.
def copyBack (out : Array UInt8) (distance : Nat) : Nat → Array UInt8
  | 0 => out
  | n + 1 => copyBack (out.push (byteBefore out distance)) distance n

def codedData (c : Codes) (s : Bits) (out : Array UInt8) : Output :=
  match _h : token? c s with
  | none => (out, none)
  | some (.literal b, t) => codedData c t (out.push b)
  | some (.copy length distance, t) => codedData c t (copyBack out distance length)
  | some (.blockEnd, t) => (out, some t)
termination_by s.left
decreasing_by all_goals exact left_of_token? _h

theorem left_of_codedData {c : Codes} {s t : Bits} {out o : Array UInt8}
    (h : codedData c s out = (o, some t)) : t.left < s.left := by
  fun_induction codedData c s out
  case case1 => cases h
  case case2 ht ih => exact Nat.lt_trans (ih h) (left_of_token? ht)
  case case3 ht ih => exact Nat.lt_trans (ih h) (left_of_token? ht)
  case case4 ht => cases h; exact left_of_token? ht

def fixedCodes : Codes where
  literals := .ofLengths (List.replicate 144 8 ++ List.replicate 112 9 ++ List.replicate 24 7 ++
    List.replicate 8 8)
  distances := .ofLengths (List.replicate 30 5)

def lengthOrder : List Nat :=
  [16, 17, 18, 0, 8, 7, 9, 6, 10, 5, 11, 4, 12, 3, 13, 2, 14, 1, 15]

def smallNumbers? : Nat → Bits → Option (List Nat × Bits)
  | 0, s => some ([], s)
  | n + 1, s => do
    let (v, s) ← s.number? 3
    let (vs, s) ← smallNumbers? n s
    return (v :: vs, s)

theorem left_of_smallNumbers? {n : Nat} {vs : List Nat} {s t : Bits}
    (h : smallNumbers? n s = some (vs, t)) : t.left ≤ s.left := by
  induction n generalizing s vs with
  | zero => cases h; exact Nat.le_refl _
  | succ n ih =>
    simp only [smallNumbers?, Option.bind_eq_bind, Option.bind_eq_some_iff] at h
    obtain ⟨⟨_, _⟩, h₁, ⟨_, _⟩, h₂, h⟩ := h
    cases h
    exact Nat.le_trans (ih h₂) (Bits.left_of_number? h₁)

def repetition? (symbol : Nat) (previous : Option Nat) (s : Bits) : Option ((Nat × Nat) × Bits) :=
  match symbol with
  | 16 => do
    let length ← previous
    let (n, s) ← s.number? 2
    return ((n, length), s)
  | 17 => do
    let (n, s) ← s.number? 3
    return ((n, 0), s)
  | _ => do
    let (n, s) ← s.number? 7
    return ((n + 8, 0), s)

theorem left_of_repetition? {symbol : Nat} {previous : Option Nat} {v : Nat × Nat} {s t : Bits}
    (h : repetition? symbol previous s = some (v, t)) : t.left ≤ s.left := by
  unfold repetition? at h
  split at h <;> simp only [Option.bind_eq_bind, Option.bind_eq_some_iff] at h
  · obtain ⟨_, -, ⟨_, _⟩, h₁, h⟩ := h
    cases h
    exact Bits.left_of_number? h₁
  · obtain ⟨⟨_, _⟩, h₁, h⟩ := h
    cases h
    exact Bits.left_of_number? h₁
  · obtain ⟨⟨_, _⟩, h₁, h⟩ := h
    cases h
    exact Bits.left_of_number? h₁

-- Code lengths, `wanted` of them. A repetition adds three to the number that is stored.
def codeLengths? (c : Code) (wanted : Nat) (previous : Option Nat) (s : Bits) :
    Option (List Nat × Bits) :=
  if wanted = 0 then
    some ([], s)
  else
    match c.symbol? s with
    | none => none
    | some (symbol, t) =>
      if symbol < 16 then
        match codeLengths? c (wanted - 1) (some symbol) t with
        | some (lengths, u) => some (symbol :: lengths, u)
        | none => none
      else
        match repetition? symbol previous t with
        | none => none
        | some ((n, length), u) =>
          if n + 3 ≤ wanted then
            match codeLengths? c (wanted - (n + 3)) (some length) u with
            | some (lengths, v) => some (List.replicate (n + 3) length ++ lengths, v)
            | none => none
          else
            none
termination_by wanted

theorem left_of_codeLengths? {c : Code} {wanted : Nat} {previous : Option Nat} {s t : Bits}
    {lengths : List Nat} (h : codeLengths? c wanted previous s = some (lengths, t)) :
    t.left ≤ s.left := by
  fun_induction codeLengths? c wanted previous s generalizing lengths <;> try cases h
  case case1 => exact Nat.le_refl _
  case case3 hs _ _ ih hl =>
    exact Nat.le_trans (ih hl) (Nat.le_of_lt (Code.left_of_symbol? hs))
  case case6 hs _ _ _ _ hr _ _ ih hl =>
    exact Nat.le_trans (ih hl)
      (Nat.le_trans (left_of_repetition? hr) (Nat.le_of_lt (Code.left_of_symbol? hs)))

def lengthCode? (sizes : List Nat) : Option Code :=
  Code.ofLengths? ((List.range 19).map fun symbol =>
    ((lengthOrder.zip sizes).lookup symbol).getD 0)

def ownCodes? (s : Bits) : Option (Codes × Bits) := do
  let (l, s) ← s.number? 5
  let (d, s) ← s.number? 5
  let (n, s) ← s.number? 4
  let (sizes, s) ← smallNumbers? (n + 4) s
  if 286 < l + 257 ∨ 30 < d + 1 then
    none
  else
    let sizeCode ← lengthCode? sizes
    let (lengths, s) ← codeLengths? sizeCode (l + 257 + (d + 1)) none s
    let literals ← Code.ofLengths? (lengths.take (l + 257))
    let distances ← Code.ofLengths? (lengths.drop (l + 257))
    return (⟨literals, distances⟩, s)

theorem left_of_ownCodes? {c : Codes} {s t : Bits} (h : ownCodes? s = some (c, t)) :
    t.left ≤ s.left := by
  simp only [ownCodes?, Option.bind_eq_bind, Option.bind_eq_some_iff] at h
  obtain ⟨⟨_, _⟩, h₁, ⟨_, _⟩, h₂, ⟨_, _⟩, h₃, ⟨_, _⟩, h₄, h⟩ := h
  split at h
  case isTrue => cases h
  case isFalse =>
  obtain ⟨_, -, ⟨_, _⟩, h₅, _, -, _, -, h⟩ := by
    simpa only [Option.bind_eq_some_iff] using h
  cases h
  have h₁ := Bits.left_of_number? h₁
  have h₂ := Bits.left_of_number? h₂
  have h₃ := Bits.left_of_number? h₃
  have h₄ := left_of_smallNumbers? h₄
  have h₅ := left_of_codeLengths? h₅
  dsimp only at *
  omega

def storedBlock (s : Bits) (out : Array UInt8) : Output :=
  match s.rest with
  | a :: b :: c :: d :: bytes =>
    let length := a.toNat + 256 * b.toNat
    if length + (c.toNat + 256 * d.toNat) = 65535 then
      let (here, after) := bytes.splitAt length
      (here.foldl Array.push out, if here.length = length then some (.ofBytes after) else none)
    else
      (out, none)
  | _ => (out, none)

theorem left_of_storedBlock {s t : Bits} {out o : Array UInt8}
    (h : storedBlock s out = (o, some t)) : t.left ≤ s.left := by
  have hr := s.length_rest
  unfold storedBlock at h
  split at h
  case h_1 a b c d bytes he =>
    dsimp only at h
    split at h
    · simp only [List.splitAt_eq, Prod.mk.injEq] at h
      split at h
      · obtain ⟨-, h⟩ := h
        cases h
        simp only [he, List.length_cons] at hr
        simp only [Bits.left_ofBytes, List.length_drop]
        omega
      · cases h.2
    · cases h
  case h_2 => cases h

def block (kind : Nat) (s : Bits) (out : Array UInt8) : Output :=
  match kind with
  | 0 => storedBlock s out
  | 1 => codedData fixedCodes s out
  | 2 =>
    match ownCodes? s with
    | some (codes, t) => codedData codes t out
    | none => (out, none)
  | _ => (out, none)

theorem left_of_block {kind : Nat} {s t : Bits} {out o : Array UInt8}
    (h : block kind s out = (o, some t)) : t.left ≤ s.left := by
  unfold block at h
  split at h
  · exact left_of_storedBlock h
  · exact Nat.le_of_lt (left_of_codedData h)
  · split at h
    · next hc => exact Nat.le_trans (Nat.le_of_lt (left_of_codedData h)) (left_of_ownCodes? hc)
    · cases h
  · cases h

def inflate (s : Bits) (out : Array UInt8) : Output :=
  match _h₁ : s.next? with
  | none => (out, none)
  | some (last, t) =>
    match _h₂ : t.number? 2 with
    | none => (out, none)
    | some (kind, u) =>
      match _h₃ : block kind u out with
      | (out, none) => (out, none)
      | (out, some v) => if last then (out, some v) else inflate v out
termination_by s.left
decreasing_by
  have := Bits.left_of_next? _h₁
  have := Bits.left_of_number? _h₂
  have := left_of_block _h₃
  omega

theorem left_of_inflate {s t : Bits} {out o : Array UInt8} (h : inflate s out = (o, some t)) :
    t.left ≤ s.left := by
  fun_induction inflate s out
  case case1 => cases h
  case case2 => cases h
  case case3 => cases h
  case case4 h₂ _ _ h₃ h₁ =>
    cases h
    have := Bits.left_of_next? h₁
    have := Bits.left_of_number? h₂
    have := left_of_block h₃
    omega
  case case5 h₁ _ _ h₂ _ _ h₃ _ ih =>
    have := ih h
    have := Bits.left_of_next? h₁
    have := Bits.left_of_number? h₂
    have := left_of_block h₃
    omega

end TarGuard.Gzip
