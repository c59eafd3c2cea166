import Mathlib.Algebra.Order.Ring.Nat
import Mathlib.Data.List.Basic
import Mathlib.Data.List.Lex
import Mathlib.Data.List.TakeWhile

/-! Byte strings: literals, decimal numerals and the fixed-size arrays of the
wire format. Nothing here depends on what the bytes are used for. -/
namespace TitanCore

/-- `std::string` and `std::vector<uint8_t>` alike: a sequence of bytes. -/
abbrev Bytes := List UInt8

/-- `std::array<uint8_t, n>`: the length is part of the type. -/
abbrev ByteArr (n : Nat) := { bytes : Bytes // bytes.length = n }

/-- The UTF-8 bytes of a literal. -/
def str (s : String) : Bytes := s.toByteArray.data.toList

/-- Bytes compare as unsigned numbers, and arrays of them lexicographically. -/
def Bytes.less (a b : Bytes) : Bool := decide (a.map UInt8.toNat < b.map UInt8.toNat)

theorem map_toNat_injective : Function.Injective (List.map UInt8.toNat) :=
  List.map_injective_iff.mpr fun _ _ => UInt8.toNat.inj

theorem less_irrefl (a : Bytes) : Bytes.less a a = false := by
  simp [Bytes.less]

theorem less_asymm {a b : Bytes} (h : Bytes.less a b = true) : Bytes.less b a = false := by
  simp only [Bytes.less,decide_eq_true_eq,decide_eq_false_iff_not] at h ⊢
  exact lt_asymm h

theorem less_trans {a b c : Bytes} (hab : Bytes.less a b = true) (hbc : Bytes.less b c = true) :
    Bytes.less a c = true := by
  simp only [Bytes.less,decide_eq_true_eq] at hab hbc ⊢
  exact lt_trans hab hbc

theorem less_trichotomy (a b : Bytes) :
    Bytes.less a b = true ∨ a = b ∨ Bytes.less b a = true := by
  simp only [Bytes.less,decide_eq_true_eq]
  rcases lt_trichotomy (a.map UInt8.toNat) (b.map UInt8.toNat) with h | h | h
  · exact .inl h
  · exact .inr (.inl (map_toNat_injective h))
  · exact .inr (.inr h)

theorem less_cons (x y : UInt8) (a b : Bytes) : Bytes.less (x :: a) (y :: b) = true ↔
    x.toNat < y.toNat ∨ x = y ∧ Bytes.less a b = true := by
  simp only [Bytes.less,List.map_cons,decide_eq_true_eq,List.cons_lt_cons_iff,UInt8.toNat_inj]

theorem less_append_left (start a b : Bytes) :
    Bytes.less (start ++ a) (start ++ b) = true ↔ Bytes.less a b = true := by
  induction start with
  | nil => rfl
  | cons x start ih =>
    rw [List.cons_append,List.cons_append,less_cons,ih]
    exact ⟨fun h => (h.resolve_left (lt_irrefl _)).2,fun h => .inr ⟨rfl,h⟩⟩

/-- `<=` of byte strings, the order of the keys in a store. -/
def Bytes.le (a b : Bytes) : Prop := Bytes.less b a = false

namespace Bytes

instance : DecidableRel Bytes.le := fun a b => inferInstanceAs (Decidable (Bytes.less b a = false))

theorem le_iff {a b : Bytes} : Bytes.le a b ↔ Bytes.less a b = true ∨ a = b := by
  unfold Bytes.le
  constructor
  · intro not_less
    rcases less_trichotomy a b with h | h | h
    · exact .inl h
    · exact .inr h
    · rw [not_less] at h
      cases h
  · rintro (h | rfl)
    · exact less_asymm h
    · exact less_irrefl a

instance : IsTrans Bytes Bytes.le := ⟨fun a b c hab hbc => by
  rw [le_iff] at hab hbc ⊢
  rcases hab with h | rfl
  · rcases hbc with h' | rfl
    · exact .inl (less_trans h h')
    · exact .inl h
  · exact hbc⟩

instance : Std.Antisymm Bytes.le := ⟨fun a b hab hba => by
  rcases le_iff.mp hab with h | h
  · rw [Bytes.le,h] at hba
    cases hba
  · exact h⟩

instance : Std.Total Bytes.le := ⟨fun a b => by
  rw [le_iff,le_iff]
  rcases less_trichotomy a b with h | h | h
  · exact .inl (.inl h)
  · exact .inl (.inr h)
  · exact .inr (.inl h)⟩

theorem le_cons (x y : UInt8) (a b : Bytes) : Bytes.le (x :: a) (y :: b) ↔
    x.toNat < y.toNat ∨ x = y ∧ Bytes.le a b := by
  rw [le_iff,less_cons,le_iff,List.cons.injEq]
  tauto

theorem le_append (start rest : Bytes) : Bytes.le start (start ++ rest) := by
  induction start with
  | nil => simp [Bytes.le,Bytes.less]
  | cons x start ih => exact (le_cons x x start _).mpr (.inr ⟨rfl,ih⟩)

/-- What lies between a string and one of its continuations continues it too. -/
theorem prefix_of_between {start x rest : Bytes} (above : Bytes.le start x)
    (below : Bytes.le x (start ++ rest)) : start <+: x := by
  induction start generalizing x with
  | nil => exact List.nil_prefix
  | cons b start ih =>
    cases x with
    | nil =>
      rcases le_iff.mp above with h | h
      · simp [Bytes.less] at h
      · cases h
    | cons c x =>
      rw [le_cons] at above
      rw [List.cons_append,le_cons] at below
      rcases above with less | ⟨rfl,above⟩
      · rcases below with less' | ⟨rfl,-⟩
        · exact absurd (lt_trans less less') (lt_irrefl _)
        · exact absurd less (lt_irrefl _)
      · rcases below with less' | ⟨-,below⟩
        · exact absurd less' (lt_irrefl _)
        · exact List.cons_prefix_cons.mpr ⟨rfl,ih above below⟩

end Bytes

/-- `std::to_string` of an unsigned number. -/
def decimal (n : Nat) : Bytes := (Nat.toDigits 10 n).map fun c => UInt8.ofNat c.toNat

def isDigit (b : UInt8) : Bool := decide (48 ≤ b.toNat) && decide (b.toNat ≤ 57)

/-- The number a run of decimal digits denotes, continuing from `init`. -/
def digitsValue (init : Nat) (digits : Bytes) : Nat :=
  digits.foldl (fun v b => 10 * v + (b.toNat - 48)) init

theorem digit_toNat {c : Char} (digit : c.isDigit = true) :
    (UInt8.ofNat c.toNat).toNat = c.toNat ∧ 48 ≤ c.toNat ∧ c.toNat ≤ 57 := by
  have range : 48 ≤ c.toNat ∧ c.toNat ≤ 57 := by
    simp only [Char.isDigit,Bool.and_eq_true,decide_eq_true_eq] at digit
    exact ⟨digit.1,digit.2⟩
  refine ⟨?_,range⟩
  simp only [UInt8.toNat_ofNat']
  omega

theorem decimal_digits (n : Nat) : ∀ b ∈ decimal n, isDigit b = true := by
  intro b member
  obtain ⟨c,hc,rfl⟩ := List.mem_map.mp member
  have h := digit_toNat (Nat.isDigit_of_mem_toDigits (by decide) (by decide) hc)
  simp only [isDigit,h.1,Bool.and_eq_true,decide_eq_true_eq]
  exact h.2

theorem decimal_ne_nil (n : Nat) : decimal n ≠ [] := by
  simp [decimal,Nat.toDigits_ne_nil]

theorem digitsValue_chars (init : Nat) (cs : List Char) (digits : ∀ c ∈ cs, c.isDigit = true) :
    digitsValue init (cs.map fun c => UInt8.ofNat c.toNat) = Nat.ofDigitChars 10 cs init := by
  induction cs generalizing init with
  | nil => rfl
  | cons c cs ih =>
    have h := (digit_toNat (digits c (by simp))).1
    simp only [digitsValue,Nat.ofDigitChars,List.map_cons,List.foldl_cons] at ih ⊢
    rw [h]
    exact ih _ fun d hd => digits d (List.mem_cons_of_mem _ hd)

@[simp] theorem digitsValue_decimal (n : Nat) : digitsValue 0 (decimal n) = n := by
  rw [decimal,digitsValue_chars _ _ fun c hc => Nat.isDigit_of_mem_toDigits (by decide) (by decide) hc]
  exact Nat.ofDigitChars_ten_toDigits

/-- What was read before counts for its value shifted past the digits that follow. -/
theorem digitsValue_shift (init : Nat) (digits : Bytes) :
    digitsValue init digits = init * 10 ^ digits.length + digitsValue 0 digits := by
  induction digits generalizing init with
  | nil => simp [digitsValue]
  | cons b rest ih =>
    have first : ∀ v, digitsValue v (b :: rest) = digitsValue (10 * v + (b.toNat - 48)) rest :=
      fun _ => rfl
    rw [first init,first 0,ih (10 * init + _),ih (10 * 0 + _),List.length_cons,Nat.pow_succ,
      Nat.add_mul,Nat.add_mul,Nat.mul_comm 10 init,Nat.mul_assoc,Nat.mul_comm 10 (10 ^ _)]
    omega

theorem digitsValue_cons (b : UInt8) (rest : Bytes) :
    digitsValue 0 (b :: rest) = (b.toNat - 48) * 10 ^ rest.length + digitsValue 0 rest := by
  have first : digitsValue 0 (b :: rest) = digitsValue (10 * 0 + (b.toNat - 48)) rest := rfl
  rw [first,digitsValue_shift,Nat.mul_zero,Nat.zero_add]

theorem digitsValue_lt {digits : Bytes} (all : ∀ b ∈ digits, isDigit b = true) :
    digitsValue 0 digits < 10 ^ digits.length := by
  induction digits with
  | nil => decide
  | cons b rest ih =>
    have below := ih fun c hc => all c (List.mem_cons_of_mem _ hc)
    have digit := all b (by simp)
    simp only [isDigit,Bool.and_eq_true,decide_eq_true_eq] at digit
    have shifted : (b.toNat - 48) * 10 ^ rest.length ≤ 9 * 10 ^ rest.length :=
      Nat.mul_le_mul_right _ (by omega)
    rw [digitsValue_cons,List.length_cons,Nat.pow_succ]
    omega

/-- Digit strings of one length sort like the numbers they denote: the first digit that
differs outweighs all that follow it. -/
theorem less_iff_digitsValue {a b : Bytes} (digits_a : ∀ c ∈ a, isDigit c = true)
    (digits_b : ∀ c ∈ b, isDigit c = true) (length : a.length = b.length) :
    Bytes.less a b = true ↔ digitsValue 0 a < digitsValue 0 b := by
  induction a generalizing b with
  | nil =>
    cases b with
    | nil => simp [less_irrefl]
    | cons _ _ => cases length
  | cons x a ih =>
    cases b with
    | nil => cases length
    | cons y b =>
      have same : a.length = b.length := Nat.succ.inj length
      have rest_a := fun c hc => digits_a c (List.mem_cons_of_mem x hc)
      have rest_b := fun c hc => digits_b c (List.mem_cons_of_mem y hc)
      have below_a := digitsValue_lt rest_a
      have below_b := digitsValue_lt rest_b
      have digit_x := digits_a x (by simp)
      have digit_y := digits_b y (by simp)
      simp only [isDigit,Bool.and_eq_true,decide_eq_true_eq] at digit_x digit_y
      rw [less_cons,ih rest_a rest_b same,digitsValue_cons,digitsValue_cons,← same]
      rw [← same] at below_b
      rcases Nat.lt_trichotomy x.toNat y.toNat with less | equal | greater
      · have outweighed : (x.toNat - 48 + 1) * 10 ^ a.length ≤ (y.toNat - 48) * 10 ^ a.length :=
          Nat.mul_le_mul_right _ (by omega)
        rw [Nat.add_mul] at outweighed
        exact iff_of_true (.inl less) (by omega)
      · obtain rfl := UInt8.toNat.inj equal
        simp
      · have outweighed : (y.toNat - 48 + 1) * 10 ^ a.length ≤ (x.toNat - 48) * 10 ^ a.length :=
          Nat.mul_le_mul_right _ (by omega)
        rw [Nat.add_mul] at outweighed
        refine iff_of_false ?_ (by omega)
        rintro (less | ⟨rfl,-⟩)
        · exact absurd less (Nat.lt_asymm greater)
        · exact absurd greater (Nat.lt_irrefl _)

/-- How many digits a number below a power of ten prints with. -/
theorem decimal_length_le {n k : Nat} (positive : 0 < k) :
    (decimal n).length ≤ k ↔ n < 10 ^ k := by
  simp only [decimal,List.length_map]
  exact Nat.length_toDigits_le_iff (by decide) positive

theorem decimal_length_pos (n : Nat) : 0 < (decimal n).length :=
  List.length_pos_iff.mpr (decimal_ne_nil n)

def hexDigit (n : Nat) : UInt8 := if n < 10 then UInt8.ofNat (48 + n) else UInt8.ofNat (87 + n)

def hexValue (b : UInt8) : Option Nat :=
  let n := b.toNat
  if 48 ≤ n ∧ n ≤ 57 then some (n - 48)
  else if 97 ≤ n ∧ n ≤ 102 then some (n - 87)
  else if 65 ≤ n ∧ n ≤ 70 then some (n - 55)
  else none

theorem hexValue_hexDigit {n : Nat} (small : n < 16) : hexValue (hexDigit n) = some n := by
  have table : ∀ m : Fin 16, hexValue (hexDigit m.val) = some m.val := by decide
  exact table ⟨n,small⟩

/-- `isspace` in the C locale. -/
def isSpace (b : UInt8) : Bool := b == 32 || (decide (9 ≤ b.toNat) && decide (b.toNat ≤ 13))

theorem isSpace_digit {b : UInt8} (digit : isDigit b = true) : isSpace b = false := by
  simp only [isDigit,Bool.and_eq_true,decide_eq_true_eq] at digit
  simp only [isSpace,Bool.or_eq_false_iff,beq_eq_false_iff_ne,Bool.and_eq_false_iff,
    decide_eq_false_iff_not]
  refine ⟨?_,.inr (by omega)⟩
  rintro rfl
  exact absurd digit.1 (by decide)

/-- A leading `-` or `+`, as the `strto*` family reads it: whether the number is negated,
and the text after the sign. -/
def signOf : Bytes → Bool × Bytes
  | 45 :: rest => (true,rest)
  | 43 :: rest => (false,rest)
  | s => (false,s)

/-- `std::stoull` in base ten; `none` is the exception it throws (no digit, or a value
that does not fit). -/
def stoull (s : Bytes) : Option UInt64 :=
  let (negative,body) := signOf (s.dropWhile isSpace)
  let digits := body.takeWhile isDigit
  let value := digitsValue 0 digits
  if digits.isEmpty ∨ 2 ^ 64 ≤ value then none
  else some (if negative then 0 - UInt64.ofNat value else UInt64.ofNat value)

theorem signOf_digit {b : UInt8} {rest : Bytes} (digit : isDigit b = true) :
    signOf (b :: rest) = (false,b :: rest) := by
  unfold signOf
  split
  next h => obtain ⟨rfl,rfl⟩ := List.cons.inj h; exact absurd digit (by decide)
  next h => obtain ⟨rfl,rfl⟩ := List.cons.inj h; exact absurd digit (by decide)
  next => rfl

@[simp] theorem stoull_decimal (n : UInt64) : stoull (decimal n.toNat) = some n := by
  have digits := decimal_digits n.toNat
  cases shape : decimal n.toNat with
  | nil => exact absurd shape (decimal_ne_nil _)
  | cons b rest =>
    rw [shape] at digits
    have head := digits b (by simp)
    have whole : (b :: rest).takeWhile isDigit = b :: rest := by
      rw [List.takeWhile_eq_self_iff]; exact digits
    have value : digitsValue 0 (b :: rest) = n.toNat := by rw [← shape,digitsValue_decimal]
    have bound := n.toNat_lt
    simp [stoull,isSpace_digit head,signOf_digit head,whole,value,bound]

end TitanCore
