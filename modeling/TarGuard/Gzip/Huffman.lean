import TarGuard.Gzip.Bits

namespace TarGuard.Gzip

-- For each length from 1 on, the symbols with codes of that length. These are consecutive numbers,
-- in the order of the symbols, and go on where the codes of the next shorter length end.
structure Code where
  symbols : List (Array Nat)

namespace Code

def maxLength : Nat := 15

def symbolsOfLength (lengths : List Nat) (n : Nat) : Array Nat :=
  (lengths.zipIdx.filterMap fun (length, symbol) =>
    if length = n then some symbol else none).toArray

def ofLengths (lengths : List Nat) : Code :=
  ⟨(List.range maxLength).map fun n => symbolsOfLength lengths (n + 1)⟩

def unused? (c : Code) : Option Nat :=
  c.symbols.foldlM (fun free s => if s.size ≤ 2 * free then some (2 * free - s.size) else none) 1

-- A code leaves no sequence of bits without a meaning, unless no symbol has more than one bit.
def IsAdmissible (c : Code) : Prop :=
  match c.unused? with
  | none => False
  | some free => free = 0 ∨ ∀ s ∈ c.symbols.tail, s.size = 0

instance (c : Code) : Decidable c.IsAdmissible := by
  unfold IsAdmissible
  split <;> infer_instance

def ofLengths? (lengths : List Nat) : Option Code :=
  if (ofLengths lengths).IsAdmissible then some (ofLengths lengths) else none

-- Reads bits until they are the code of a symbol. `offset` is their distance from the first code.
def symbolFrom? : List (Array Nat) → Nat → Bits → Option (Nat × Bits)
  | [], _, _ => none
  | symbols :: longer, offset, s => do
    let (bit, s) ← s.next?
    let offset := 2 * offset + bit.toNat
    match symbols[offset]? with
    | some symbol => return (symbol, s)
    | none => symbolFrom? longer (offset - symbols.size) s

def symbol? (c : Code) (s : Bits) : Option (Nat × Bits) :=
  symbolFrom? c.symbols 0 s

theorem left_of_symbolFrom? {table : List (Array Nat)} {offset v : Nat} {s t : Bits}
    (h : symbolFrom? table offset s = some (v, t)) : t.left < s.left := by
  induction table generalizing offset s with
  | nil => cases h
  | cons symbols longer ih =>
    simp only [symbolFrom?, Option.bind_eq_bind, Option.bind_eq_some_iff] at h
    obtain ⟨⟨bit, u⟩, hu, h⟩ := h
    have := Bits.left_of_next? hu
    split at h
    · cases h; exact this
    · exact Nat.lt_trans (ih h) this

theorem left_of_symbol? {c : Code} {v : Nat} {s t : Bits} (h : c.symbol? s = some (v, t)) :
    t.left < s.left :=
  left_of_symbolFrom? h

end Code
end TarGuard.Gzip
