import Mathlib.Data.List.DropRight
import Mathlib.Data.List.TakeWhile
import TarGuard.Header.Codec
import TarGuard.Proofs.Digits
import TarGuard.Proofs.Utf8

namespace TarGuard.Octal

def number (digits : List UInt8) : Nat :=
  Nat.ofDigits 8 (digits.map fun d => d.toNat - 0x30).reverse

def text (n : Nat) : List UInt8 :=
  (Nat.toDigits 8 n).map fun c => .ofNat c.toNat

-- The digits in a field: behind the spaces and NULs it begins with, as many as follow one another.
inductive Shows : List UInt8 → List UInt8 → Prop
  | mk (fill ds rest) : (∀ b ∈ fill, b = 0x20 ∨ b = 0) →
    (∀ b ∈ (ds ++ rest).head?, ¬ (b = 0x20 ∨ b = 0)) → (∀ d ∈ ds, 0x30 ≤ d ∧ d ≤ 0x37) →
    (∀ b ∈ rest.head?, ¬ (0x30 ≤ b ∧ b ≤ 0x37)) → Shows (fill ++ (ds ++ rest)) ds

def append (n : Nat) (d : UInt8) : Nat :=
  n * 8 + (d.toNat - 0x30)

theorem value_eq_foldl (ds : List UInt8) : value ds = ds.foldl append 0 := rfl

theorem number_eq_value (ds : List UInt8) : number ds = value ds :=
  (Digits.foldl_eq_ofDigits 8 _ ds).symm

section Reading

variable {d : UInt8} {field ds : List UInt8} {n m : UInt64}

theorem isFill_iff : isFill d ↔ d = 0x20 ∨ d = 0 := by
  rw [isFill, Bool.or_eq_true, beq_iff_eq, beq_iff_eq]

theorem isDigit_iff : isDigit d ↔ 0x30 ≤ d ∧ d ≤ 0x37 := by
  rw [isDigit, Bool.and_eq_true, decide_eq_true_iff, decide_eq_true_iff]

theorem isDigit_iff_toNat : isDigit d ↔ 0x30 ≤ d.toNat ∧ d.toNat ≤ 0x37 := by
  rw [isDigit_iff, UInt8.le_iff_toNat_le, UInt8.le_iff_toNat_le]
  rfl

theorem not_isFill_of_isDigit (h : isDigit d) : ¬ isFill d := by
  rw [isFill_iff]
  rintro (rfl | rfl)
  all_goals exact absurd h (by decide)

theorem isDigit_of_mem_digits (h : d ∈ digits field) : isDigit d :=
  List.all_eq_true.mp List.all_takeWhile d h

theorem not_of_mem_head?_dropWhile {p : UInt8 → Bool} {bs : List UInt8}
    (h : d ∈ (bs.dropWhile p).head?) : ¬ p d := by
  have hstop := List.head?_dropWhile_not p bs
  rw [Option.mem_def.mp h] at hstop
  exact Bool.not_eq_true _ ▸ hstop

theorem not_get_zero_of_head? {p : UInt8 → Bool} {bs : List UInt8} (h : ∀ b ∈ bs.head?, ¬ p b)
    (hl : 0 < bs.length) : ¬ p (bs.get ⟨0, hl⟩) :=
  h _ (by rw [List.head?_eq_getElem?, List.getElem?_eq_getElem hl]; rfl)

theorem shows_digits (field : List UInt8) : Shows field (digits field) := by
  have hf : field.takeWhile isFill ++ (digits field ++ (field.dropWhile isFill).dropWhile isDigit) =
      field := by
    rw [digits, List.takeWhile_append_dropWhile, List.takeWhile_append_dropWhile]
  have hs := Shows.mk (field.takeWhile isFill) (digits field)
    ((field.dropWhile isFill).dropWhile isDigit) ?fill ?start ?digits ?stop
  case fill => exact fun b hb => isFill_iff.mp (List.all_eq_true.mp List.all_takeWhile b hb)
  case start =>
    intro b hb
    rw [digits, List.takeWhile_append_dropWhile] at hb
    exact isFill_iff.not.mp (not_of_mem_head?_dropWhile hb)
  case digits => exact fun d hd => isDigit_iff.mp (isDigit_of_mem_digits hd)
  case stop => exact fun b hb => isDigit_iff.not.mp (not_of_mem_head?_dropWhile hb)
  rwa [hf] at hs

theorem digits_of_shows (h : Shows field ds) : digits field = ds := by
  obtain ⟨fill, _, rest, hfill, hstart, hdigits, hstop⟩ := h
  simp only [← isFill_iff, ← isDigit_iff] at hfill hstart hdigits hstop
  have hstarts := List.dropWhile_eq_self_iff.mpr (not_get_zero_of_head? hstart)
  have hstops := List.takeWhile_eq_nil_iff.mpr (not_get_zero_of_head? hstop)
  rw [digits, List.dropWhile_append_of_pos hfill, hstarts, List.takeWhile_append_of_pos hdigits,
    hstops, List.append_nil]

theorem le_foldl_append (n : Nat) (ds : List UInt8) : n ≤ ds.foldl append n := by
  induction ds generalizing n with
  | nil => exact Nat.le_refl n
  | cons d ds ih =>
    refine Nat.le_trans ?_ (ih (append n d))
    unfold append
    omega

theorem push?_eq_some_iff (hd : isDigit d) : push? n d = some m ↔ m.toNat = append n.toNat d := by
  have hsum (hlt : append n.toNat d < UInt64.size) :
      (n * 8 + (d - 0x30).toUInt64).toNat = append n.toNat d := by
    have hs : (d - 0x30).toNat = d.toNat - 0x30 := UInt8.toNat_sub_of_le _ _ (isDigit_iff.mp hd).1
    have h8 : (8 : UInt64).toNat = 8 := rfl
    simp only [UInt64.toNat_add, UInt64.toNat_mul, UInt8.toNat_toUInt64, hs, h8, append]
    simp only [UInt64.size, append] at hlt
    omega
  constructor
  · intro h
    obtain ⟨hlt, hm⟩ := Option.ite_none_right_eq_some.mp h
    rw [← Option.some_inj.mp hm, hsum hlt]
  · intro h
    have hlt : append n.toNat d < UInt64.size := h ▸ m.toNat_lt
    have hp : push? n d = some (n * 8 + (d - 0x30).toUInt64) := if_pos hlt
    rw [hp, Option.some_inj, ← UInt64.toNat_inj, hsum hlt, h]

-- The digits of a number are gone through to the last if and only if it fits. Numbers do not get
-- smaller on the way, and so each of them fits if the last one does.
theorem foldlM_push?_eq_some_iff (hd : ∀ d ∈ ds, isDigit d) :
    ds.foldlM push? n = some m ↔ m.toNat = ds.foldl append n.toNat := by
  induction ds generalizing n with
  | nil =>
    rw [List.foldlM_nil, List.foldl_nil, Option.pure_def, Option.some_inj, UInt64.toNat_inj]
    exact eq_comm
  | cons d ds ih =>
    obtain ⟨hdig, hds⟩ := List.forall_mem_cons.mp hd
    simp only [List.foldlM_cons, Option.bind_eq_bind, Option.bind_eq_some_iff, List.foldl_cons,
      push?_eq_some_iff hdig, ih hds]
    constructor
    · rintro ⟨k, hk, hm⟩
      rw [hm, hk]
    · intro hm
      have hlt : append n.toNat d < UInt64.size :=
        Nat.lt_of_le_of_lt (hm ▸ le_foldl_append _ ds) m.toNat_lt
      have hk : (UInt64.ofNat (append n.toNat d)).toNat = append n.toNat d :=
        UInt64.toNat_ofNat_of_lt' hlt
      exact ⟨_, hk, by rw [hk, hm]⟩

theorem toNat_parse (field : List UInt8) :
    (parse field).toNat =
      if value (digits field) < UInt64.size then value (digits field) else 0 := by
  have hfold (m : UInt64) : (digits field).foldlM push? 0 = some m ↔
      m.toNat = value (digits field) :=
    foldlM_push?_eq_some_iff fun _ => isDigit_of_mem_digits
  rw [parse]
  split
  case isTrue hlt =>
    have hv := UInt64.toNat_ofNat_of_lt' hlt
    rw [(hfold _).mpr hv, Option.getD_some, hv]
  case isFalse hge =>
    have hnone : (digits field).foldlM push? 0 = none :=
      Option.eq_none_iff_forall_ne_some.mpr fun m hm => hge ((hfold m).mp hm ▸ m.toNat_lt)
    rw [hnone, Option.getD_none, UInt64.toNat_zero]

end Reading

section Writing

variable {d : UInt8} {width k : Nat}

theorem toNat_digit (n : Nat) : (UInt8.ofNat (0x30 + n % 8)).toNat = 0x30 + n % 8 :=
  Utf8.toNat_ofNat (by omega)

theorem isDigit_digit (n : Nat) : isDigit (.ofNat (0x30 + n % 8)) := by
  rw [isDigit_iff_toNat, toNat_digit]
  omega

theorem isDigit_of_mem_write (h : d ∈ write width k) : isDigit d := by
  induction width generalizing k with
  | zero => cases h
  | succ width ih =>
    rw [write, List.mem_append] at h
    cases h with
    | inl h => exact ih h
    | inr h => exact List.mem_singleton.mp h ▸ isDigit_digit k

theorem text_of_lt (h : k < 8) : text k = [.ofNat (0x30 + k)] := by
  rw [text, Nat.toDigits_of_lt_base h, List.map_singleton, Nat.toNat_digitChar_of_lt_ten (by omega)]

theorem text_of_le (h : 8 ≤ k) : text k = text (k / 8) ++ [.ofNat (0x30 + k % 8)] := by
  rw [text, Nat.toDigits_eq_if (by decide), if_neg (by omega), List.map_append, List.map_singleton,
    Nat.toNat_digitChar_of_lt_ten (by omega), text]

theorem leftpad_concat {α : Type} (width : Nat) (fill last : α) (l : List α) :
    (l ++ [last]).leftpad (width + 1) fill = l.leftpad width fill ++ [last] := by
  rw [List.leftpad, List.leftpad, List.length_append, List.length_singleton, Nat.add_sub_add_right,
    List.append_assoc]

theorem write_zero (width : Nat) : write width 0 = List.replicate width 0x30 := by
  induction width with
  | zero => rfl
  | succ width ih =>
    rw [write, Nat.zero_div, ih, List.replicate_succ']
    rfl

theorem write_eq (width k : Nat) : write width k = ((text k).leftpad width 0x30).rtake width := by
  induction width generalizing k with
  | zero => exact (List.rtake_zero _).symm
  | succ width ih =>
    by_cases hk : k < 8
    case pos =>
      have hd : k / 8 = 0 := Nat.div_eq_of_lt hk
      have hpad : ([.ofNat (0x30 + k)] : List UInt8).leftpad (width + 1) 0x30 =
          List.replicate width 0x30 ++ [.ofNat (0x30 + k)] := by
        rw [List.leftpad, List.length_singleton, Nat.add_sub_cancel]
      have hall : (List.replicate width (0x30 : UInt8)).rtake width = List.replicate width 0x30 := by
        rw [List.rtake, List.length_replicate, Nat.sub_self, List.drop_zero]
      rw [write, hd, write_zero, Nat.mod_eq_of_lt hk, text_of_lt hk, hpad, List.rtake_concat_succ,
        hall]
    case neg =>
      rw [text_of_le (Nat.le_of_not_lt hk), leftpad_concat, List.rtake_concat_succ, ← ih, write]

theorem value_write (width k : Nat) : value (write width k) = k % 8 ^ width := by
  induction width generalizing k with
  | zero => rw [Nat.pow_zero, Nat.mod_one]; rfl
  | succ width ih =>
    have hlast : append (k / 8 % 8 ^ width) (.ofNat (0x30 + k % 8)) =
        k % 8 + 8 * (k / 8 % 8 ^ width) := by
      rw [append, toNat_digit]
      omega
    rw [write, value_eq_foldl, List.foldl_append, ← value_eq_foldl, ih, List.foldl_cons,
      List.foldl_nil, hlast, Nat.pow_succ', Nat.mod_mul]

theorem shows_write (hw : 0 < width) (k : Nat) (rest : List UInt8) :
    Shows (write width k ++ 0 :: rest) (write width k) := by
  have hne : write width k ≠ [] := List.ne_nil_of_length_pos (by rwa [length_write])
  refine .mk [] (write width k) (0 :: rest) (List.forall_mem_nil _) ?start ?digits ?stop
  case start =>
    intro b hb
    have hm : b ∈ write width k := by
      obtain ⟨d, ds, hds⟩ := List.exists_cons_of_ne_nil hne
      rw [hds] at hb ⊢
      cases hb
      exact List.mem_cons_self
    exact isFill_iff.not.mp (not_isFill_of_isDigit (isDigit_of_mem_write hm))
  case digits => exact fun d hd => isDigit_iff.mp (isDigit_of_mem_write hd)
  case stop =>
    intro b hb
    cases hb
    decide

theorem parse_write (hw : 0 < width) (hs : k % 8 ^ width < UInt64.size) (rest : List UInt8) :
    parse (write width k ++ 0 :: rest) = .ofNat (k % 8 ^ width) := by
  rw [← UInt64.toNat_inj, toNat_parse, digits_of_shows (shows_write hw k rest), value_write,
    if_pos hs, UInt64.toNat_ofNat_of_lt' hs]

end Writing

-- There is one way to take the digits out of a field, and what is read is the number they say, or
-- zero if it is too large for a word. A field is filled with the text of a number as far as there
-- is room for it, and what is read back is the number but for the digits that were left out.
theorem parse_exact :
    (∀ field, ∃! ds, Shows field ds) ∧
    (∀ field ds, Shows field ds →
      (parse field).toNat = if number ds < 2 ^ 64 then number ds else 0) ∧
    ∀ (n : UInt64) (width : Nat), 2 ≤ width →
      Header.octalField width n.toNat =
        ((text n.toNat).leftpad (width - 1) 0x30).rtake (width - 1) ++ [0] ∧
      (parse (Header.octalField width n.toNat)).toNat = n.toNat % 8 ^ (width - 1) := by
  refine ⟨?shown, ?read, ?written⟩
  case shown =>
    exact fun field => ⟨digits field, shows_digits field, fun ds h => (digits_of_shows h).symm⟩
  case read =>
    intro field ds h
    rw [toNat_parse, digits_of_shows h, number_eq_value]
    rfl
  case written =>
    intro n width hw
    have hs : n.toNat % 8 ^ (width - 1) < UInt64.size :=
      Nat.lt_of_le_of_lt (Nat.mod_le _ _) n.toNat_lt
    refine ⟨by rw [Header.octalField, write_eq], ?_⟩
    rw [Header.octalField, parse_write (by omega) hs, UInt64.toNat_ofNat_of_lt' hs]

theorem parse_exact_greatest :
    let greatest : List UInt8 := [0x30, 0x30, 0x31] ++ List.replicate 21 0x37
    let next : List UInt8 := 0x32 :: List.replicate 21 0x30
    Shows ([0x20, 0] ++ (greatest ++ [0x78])) greatest ∧
      (parse ([0x20, 0] ++ (greatest ++ [0x78]))).toNat = 2 ^ 64 - 1 ∧
      Shows next next ∧ (parse next).toNat = 0 ∧
      Header.octalField 4 (0o54321 : UInt64).toNat = [0x33, 0x32, 0x31, 0] ∧
      (parse (Header.octalField 4 (0o54321 : UInt64).toNat)).toNat = 0o321 := by
  intro greatest next
  obtain ⟨_, hread, hwritten⟩ := parse_exact
  have hg : Shows ([0x20, 0] ++ (greatest ++ [0x78])) greatest :=
    (by decide : digits ([0x20, 0] ++ (greatest ++ [0x78])) = greatest) ▸ shows_digits _
  have hn : Shows next next := (by decide : digits next = next) ▸ shows_digits next
  have hgreatest : number greatest = 2 ^ 64 - 1 := by
    rw [number_eq_value]
    decide
  have hnext : number next = 2 ^ 64 := by
    rw [number_eq_value]
    decide
  obtain ⟨hfilled, hback⟩ := hwritten 0o54321 4 (by decide)
  refine ⟨hg, ?_, hn, ?_, hfilled.trans (by decide), hback.trans (by decide)⟩
  · rw [hread _ _ hg, hgreatest, if_pos (by decide)]
  · rw [hread _ _ hn, hnext, if_neg (by decide)]

end TarGuard.Octal
