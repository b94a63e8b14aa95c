import Mathlib.Logic.Function.Basic
import TarGuard.Limits
import TarGuard.Proofs.Digits

namespace TarGuard

namespace Blank

variable {before behind core : List Char}

theorem trim_append (hb : ∀ c ∈ before, isBlank c) (hc : ∀ c ∈ core, ¬ isBlank c)
    (hne : core ≠ []) (he : ∀ c ∈ behind, isBlank c) : trim (before ++ (core ++ behind)) = core := by
  have hback : (core ++ behind).reverse.dropWhile isBlank = core.reverse := by
    rw [List.reverse_append, ← List.append_nil core.reverse]
    exact dropWhile_append (by simpa using he) (by simpa using hc) (by simpa using hne)
  rw [trim, dropWhile_append hb hc hne, hback, List.reverse_reverse]

theorem exists_trim (cs : List Char) :
    ∃ before behind, cs = before ++ (trim cs ++ behind) ∧ (∀ c ∈ before, isBlank c) ∧
      ∀ c ∈ behind, isBlank c := by
  have hblank (ds : List Char) : ∀ c ∈ ds.takeWhile isBlank, isBlank c :=
    List.all_eq_true.mp List.all_takeWhile
  have hback : (cs.dropWhile isBlank) =
      trim cs ++ ((cs.dropWhile isBlank).reverse.takeWhile isBlank).reverse := by
    rw [trim, ← List.reverse_append, List.takeWhile_append_dropWhile, List.reverse_reverse]
  refine ⟨cs.takeWhile isBlank, ((cs.dropWhile isBlank).reverse.takeWhile isBlank).reverse, ?_,
    hblank cs, ?_⟩
  · rw [← hback, List.takeWhile_append_dropWhile]
  · simpa using hblank (cs.dropWhile isBlank).reverse

end Blank

namespace Decimal

open Blank

variable {cs digits : List Char} {c : Char} {n : UInt64}

def IsDigit (c : Char) : Prop :=
  '0' ≤ c ∧ c ≤ '9'

def number (digits : List Char) : Nat :=
  Nat.ofDigits 10 (digits.map fun c => c.toNat - '0'.toNat).reverse

-- A text that says a number: digits, at least one, maybe with a plus before them, and with any
-- white space around.
inductive Spells : List Char → Nat → Prop
  | mk {before sign digits behind} : (∀ c ∈ before, isBlank c) → sign = [] ∨ sign = ['+'] →
    digits ≠ [] → (∀ c ∈ digits, IsDigit c) → (∀ c ∈ behind, isBlank c) →
    Spells (before ++ (sign ++ digits ++ behind)) (number digits)

theorem isDigit_iff : isDigit c ↔ IsDigit c := by
  rw [isDigit, Bool.and_eq_true, decide_eq_true_iff, decide_eq_true_iff, IsDigit]

theorem number_eq_value (digits : List Char) : number digits = value digits :=
  (Digits.foldl_eq_ofDigits 10 _ digits).symm

theorem exists_sign (cs : List Char) :
    ∃ sign, cs = sign ++ unsigned cs ∧ (sign = [] ∨ sign = ['+']) := by
  unfold unsigned
  split
  case h_1 => exact ⟨['+'], rfl, .inr rfl⟩
  case h_2 => exact ⟨[], rfl, .inl rfl⟩

theorem unsigned_append {sign : List Char} (hs : sign = [] ∨ sign = ['+'])
    (hd : ∀ c ∈ digits, IsDigit c) : unsigned (sign ++ digits) = digits := by
  rcases hs with rfl | rfl
  · unfold unsigned
    split
    case h_1 cs h =>
      have hplus : IsDigit '+' := hd _ (by rw [← List.nil_append digits, h]; exact List.mem_cons_self)
      exact absurd hplus (by unfold IsDigit; decide)
    case h_2 => rfl
  · rfl

theorem read?_eq_some_iff :
    read? cs = some n ↔
      unsigned cs ≠ [] ∧ (∀ c ∈ unsigned cs, IsDigit c) ∧ number (unsigned cs) = n.toNat := by
  have hall : (unsigned cs).all isDigit ↔ ∀ c ∈ unsigned cs, IsDigit c := by
    simp only [List.all_eq_true, isDigit_iff]
  rw [number_eq_value, read?]
  simp only [Option.ite_none_right_eq_some, hall, Option.some_inj]
  constructor
  · rintro ⟨⟨hne, hd, hlt⟩, rfl⟩
    exact ⟨hne, hd, (UInt64.toNat_ofNat_of_lt' hlt).symm⟩
  · rintro ⟨hne, hd, hv⟩
    refine ⟨⟨hne, hd, hv ▸ n.toNat_lt⟩, ?_⟩
    rw [hv, UInt64.ofNat_toNat]

theorem read?_trim_eq_some_iff : read? (trim cs) = some n ↔ Spells cs n.toNat := by
  constructor
  · intro h
    obtain ⟨hne, hd, hn⟩ := read?_eq_some_iff.mp h
    obtain ⟨before, behind, hcs, hb, he⟩ := exists_trim cs
    obtain ⟨sign, hsign, hs⟩ := exists_sign (trim cs)
    rw [hcs, hsign, ← hn]
    exact .mk hb hs hne hd he
  · generalize hk : n.toNat = k
    rintro ⟨hb, hs, hne, hd, he⟩
    rename_i before sign digits behind
    have hcore : ∀ c ∈ sign ++ digits, ¬ isBlank c := by
      rw [List.forall_mem_append]
      refine ⟨?_, fun c hc => not_isBlank_of_digit (hd c hc)⟩
      rcases hs with rfl | rfl
      · exact List.forall_mem_nil _
      · exact List.forall_mem_singleton.mpr (by decide)
    rw [trim_append hb hcore (List.append_ne_nil_of_right_ne_nil sign hne) he, read?_eq_some_iff,
      unsigned_append hs hd]
    exact ⟨hne, hd, hk.symm⟩

end Decimal

namespace Limits

open Blank Decimal

variable {lookup : String → Option String} {l : Limits} {field : Field} {v : UInt64}

-- What the variable of a field sets it to. Without a number in it, the field keeps its default.
inductive Sets (field : Field) : Option String → UInt64 → Prop
  | missing : Sets field none (get {} field)
  | number {text n} : Spells text.toList n.toNat → Sets field (some text) n
  | malformed {text} : (∀ n < 2 ^ 64, ¬ Spells text.toList n) →
    Sets field (some text) (get {} field)

theorem sets_some_iff {text : String} :
    Sets field (some text) v ↔ v = (read? (trim text.toList)).getD (get {} field) := by
  have hspells (n : UInt64) : read? (trim text.toList) = some n ↔ Spells text.toList n.toNat :=
    read?_trim_eq_some_iff
  cases hr : read? (trim text.toList) with
  | none =>
    have hnot : ∀ n < 2 ^ 64, ¬ Spells text.toList n := by
      intro n hn hs
      rw [← UInt64.toNat_ofNat_of_lt' hn, ← hspells, hr] at hs
      cases hs
    constructor
    · rintro (_ | hs | _)
      · exact absurd hs (hnot _ v.toNat_lt)
      · rfl
    · rintro rfl
      exact .malformed hnot
  | some n =>
    have hn : Spells text.toList n.toNat := (hspells n).mp hr
    constructor
    · rintro (_ | hs | hs)
      · rw [← hspells, hr] at hs
        exact (Option.some.inj hs).symm
      · exact absurd hn (hs _ n.toNat_lt)
    · rintro rfl
      exact .number hn

theorem sets_iff : Sets field (lookup field.variableName) v ↔ v = setting lookup field := by
  rw [setting]
  cases lookup field.variableName with
  | none =>
    constructor
    · rintro ⟨⟩
      rfl
    · rintro rfl
      exact .missing
  | some text => exact sets_some_iff

theorem get_ofFields (value : Field → UInt64) (field : Field) :
    (ofFields value).get field = value field := by
  cases field <;> rfl

theorem ext_get {l l' : Limits} (h : ∀ field, l.get field = l'.get field) : l = l' :=
  Limits.ext (h .fileSize) (h .totalSize) (h .files) (h .pathDepth) (h .componentLength)
    (h .pathLength)

theorem Field.mem_all (field : Field) : field ∈ Field.all := by
  cases field <;> decide

theorem Field.variableName_injective : Function.Injective Field.variableName := by
  intro f g h
  cases f <;> cases g <;> first | rfl | exact absurd h (by decide)

-- Among the fields, in the order of their declaration, this is the first that is zero.
def FirstZero (value : Field → UInt64) (field : Field) : Prop :=
  value field = 0 ∧ ∃ before behind, Field.all = before ++ field :: behind ∧
    ∀ f ∈ before, value f ≠ 0

theorem find?_eq_some_iff : Field.all.find? (l.get · = 0) = some field ↔ FirstZero l.get field := by
  rw [List.find?_eq_some_iff_append, FirstZero]
  simp

theorem find?_eq_none_iff : Field.all.find? (l.get · = 0) = none ↔ ∀ field, l.get field ≠ 0 := by
  rw [List.find?_eq_none]
  simp [Field.mem_all]

theorem validate_eq_ok_iff {l' : Limits} :
    l.validate = .ok l' ↔ l' = l ∧ ∀ field, l.get field ≠ 0 := by
  rw [validate, ← find?_eq_none_iff]
  cases Field.all.find? (l.get · = 0) <;> simp [eq_comm]

theorem validate_eq_error_iff : l.validate = .error ⟨field⟩ ↔ FirstZero l.get field := by
  rw [validate, ← find?_eq_some_iff]
  cases Field.all.find? (l.get · = 0) <;> simp

-- Each field gets what its own variable sets it to, and no other. The limits are accepted if none
-- of them is zero, and otherwise the first zero is complained about.
theorem ofEnvironment_exact (lookup : String → Option String) :
    (∀ field v, Sets field (lookup field.variableName) v ↔ v = setting lookup field) ∧
    (∀ field other text, other ≠ field →
      setting (Function.update lookup other.variableName text) field = setting lookup field) ∧
    (∀ l, ofEnvironment lookup = .ok l ↔
      (∀ field, l.get field = setting lookup field) ∧ ∀ field, setting lookup field ≠ 0) ∧
    (∀ field, ofEnvironment lookup = .error ⟨field⟩ ↔ FirstZero (setting lookup) field) ∧
    ∀ l, ofEnvironment lookup = .ok l → l.validate = .ok l := by
  have hget : (ofFields (setting lookup)).get = setting lookup := funext (get_ofFields _)
  have hok (l : Limits) : ofEnvironment lookup = .ok l ↔
      (∀ field, l.get field = setting lookup field) ∧ ∀ field, setting lookup field ≠ 0 := by
    rw [ofEnvironment, validate_eq_ok_iff, hget]
    refine and_congr_left fun _ => ⟨fun h => h ▸ get_ofFields _, fun h => ext_get fun field => ?_⟩
    rw [h, get_ofFields]
  refine ⟨fun _ _ => sets_iff, ?own, hok, ?refused, ?accepted⟩
  case own =>
    intro field other text hne
    rw [setting, setting, Function.update_of_ne fun h => hne (Field.variableName_injective h).symm]
  case refused =>
    intro field
    rw [ofEnvironment, validate_eq_error_iff, hget]
  case accepted =>
    intro l hl
    obtain ⟨heq, hne⟩ := (hok l).mp hl
    exact validate_eq_ok_iff.mpr ⟨rfl, fun field => heq field ▸ hne field⟩

theorem ofEnvironment_exact_spaced :
    let lookup := fun name =>
      if name = "SAFE_TGZ_MAX_FILES" then some "\u2003+012\n"
      else if name = "SAFE_TGZ_MAX_PATH_DEPTH" then some "1 2"
      else none
    ofEnvironment lookup = .ok { files := 12 } ∧
      validate { files := 12 } = .ok { files := 12 } ∧
      setting (Function.update lookup Field.files.variableName (some "0")) .fileSize =
        setting lookup .fileSize := by
  intro lookup
  obtain ⟨_, hown, hok, _, haccepted⟩ := ofEnvironment_exact lookup
  have hfields : ∀ field, get { files := 12 } field = setting lookup field := by
    intro field
    cases field <;> decide
  have hne : ∀ field, setting lookup field ≠ 0 := by
    intro field
    rw [← hfields]
    cases field <;> decide
  have hl := (hok _).mpr ⟨hfields, hne⟩
  exact ⟨hl, haccepted _ hl, hown .fileSize .files (some "0") (by decide)⟩

end Limits
end TarGuard
