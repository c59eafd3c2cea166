import Mathlib.Data.List.Induction
import TitanCore.Hex

/-! The strings `fromHex` accepts. Each two-character piece goes through `std::stoul`, which also
takes a digit followed by anything, and a sign or a space before a digit. -/
namespace TitanCore

def pieces : Bytes → List (UInt8 × UInt8)
  | a :: b :: rest => (a,b) :: pieces rest
  | _ => []

def Readable (piece : UInt8 × UInt8) : Prop :=
  isHexDigit piece.1 = true ∨
    (isSpace piece.1 = true ∨ piece.1 = 43 ∨ piece.1 = 45) ∧ isHexDigit piece.2 = true

instance : DecidablePred Readable := fun piece => inferInstanceAs (Decidable
  (isHexDigit piece.1 = true ∨
    (isSpace piece.1 = true ∨ piece.1 = 43 ∨ piece.1 = 45) ∧ isHexDigit piece.2 = true))

/-- A non-empty, even number of hexadecimal digits of either case. -/
structure IsHex (s : Bytes) : Prop where
  nonempty : s ≠ []
  even : s.length % 2 = 0
  digits : ∀ b ∈ s, isHexDigit b = true

def lowerByte (b : UInt8) : UInt8 := if 65 ≤ b.toNat ∧ b.toNat ≤ 90 then b + 32 else b

def lower (s : Bytes) : Bytes := s.map lowerByte

/-- What the header promises of `fromHex`: exactly the hexadecimal strings are decoded, and
encoding the result gives the string again, in lower case. -/
structure DecodesExactly (s : Bytes) : Prop where
  accepted : fromHex s ≠ [] ↔ IsHex s
  exact : IsHex s → toHex (fromHex s) = lower s
  refused : ¬ IsHex s → fromHex s = []

/-- A string that is no hexadecimal one, although `std::stoul` reads all its pieces. -/
structure Misread (s : Bytes) : Prop where
  even : s.length % 2 = 0
  readable : ∀ piece ∈ pieces s, Readable piece
  invalid : ∃ b ∈ s, isHexDigit b = false

section digits

theorem hexValue_small {b : UInt8} {v : Nat} (value : hexValue b = some v) : v < 16 := by
  unfold hexValue at value
  dsimp only at value
  split_ifs at value <;> cases value <;> omega

theorem hexDigit_hexValue {b : UInt8} {v : Nat} (value : hexValue b = some v) : hexDigit v = lowerByte b := by
  have table : ∀ n : Fin 256, ∀ w ∈ hexValue (UInt8.ofFin n), hexDigit w = lowerByte (UInt8.ofFin n) := by
    decide +kernel
  exact table b.toFin v value

theorem not_hex_of_space {b : UInt8} (space : isSpace b = true) : isHexDigit b = false := by
  have table : ∀ n : Fin 256, isSpace (UInt8.ofFin n) = true → isHexDigit (UInt8.ofFin n) = false := by
    decide +kernel
  exact table b.toFin space

end digits

section pieces

theorem dropHexPrefix_short {s : Bytes} (short : s.length ≤ 2) : dropHexPrefix s = s := by
  unfold dropHexPrefix
  split
  · simp at short
  · rfl

theorem signOf_length (s : Bytes) : (signOf s).2.length ≤ s.length := by
  unfold signOf
  split <;> simp

theorem hexDigitsValue_lt (digits : Bytes) : hexDigitsValue digits < 16 ^ digits.length := by
  induction digits using List.reverseRecOn with
  | nil => simp [hexDigitsValue]
  | append_singleton digits b ih =>
    have digit : (hexValue b).getD 0 < 16 := by
      cases value : hexValue b with
      | none => simp
      | some v => exact hexValue_small value
    rw [hexDigitsValue,List.foldl_append,List.length_append,List.length_singleton,Nat.pow_succ]
    change 16 * hexDigitsValue digits + (hexValue b).getD 0 < _
    omega

/-- The digits `std::stoul` takes of a piece, after spaces and a sign. -/
def digitsOf (piece : Bytes) : Bytes := (signOf (piece.dropWhile isSpace)).2.takeWhile isHexDigit

/-- On a piece there is no room for a `0x`, and no value too large. -/
theorem stoul_piece (a b : UInt8) : stoul [a,b] =
    if digitsOf [a,b] = [] then none
    else some (if (signOf ([a,b].dropWhile isSpace)).1 = true then
        0 - UInt64.ofNat (hexDigitsValue (digitsOf [a,b]))
      else UInt64.ofNat (hexDigitsValue (digitsOf [a,b]))) := by
  have short : (signOf ([a,b].dropWhile isSpace)).2.length ≤ 2 :=
    (signOf_length _).trans (List.dropWhile_suffix _).length_le
  have few : (digitsOf [a,b]).length ≤ 2 := (List.takeWhile_prefix _).length_le.trans short
  have small : hexDigitsValue (digitsOf [a,b]) < 2 ^ 64 :=
    (hexDigitsValue_lt _).trans_le ((Nat.pow_le_pow_right (by decide) few).trans (by decide))
  unfold stoul
  dsimp only
  rw [dropHexPrefix_short short]
  change (if (digitsOf [a,b]).isEmpty = true ∨ 2 ^ 64 ≤ hexDigitsValue (digitsOf [a,b]) then none else _) = _
  simp only [List.isEmpty_iff,Nat.not_le.mpr small,or_false]
  rfl

theorem digitsOf_ne_nil (a b : UInt8) : digitsOf [a,b] ≠ [] ↔ Readable (a,b) := by
  unfold digitsOf Readable
  by_cases space : isSpace a = true
  · -- the space is skipped, so the second character must be a digit by itself
    rw [List.dropWhile_cons_of_pos space]
    have single : (signOf ([b].dropWhile isSpace)).2.takeWhile isHexDigit ≠ [] ↔ isHexDigit b = true := by
      by_cases space' : isSpace b = true
      · rw [List.dropWhile_cons_of_pos space']
        simp [signOf,not_hex_of_space space']
      · rw [List.dropWhile_cons_of_neg space']
        unfold signOf
        split
        next same =>
          obtain ⟨rfl,rfl⟩ := List.cons.inj same
          decide
        next same =>
          obtain ⟨rfl,rfl⟩ := List.cons.inj same
          decide
        next => simp [List.takeWhile_cons]
    rw [single]
    simp [not_hex_of_space space,space]
  · rw [List.dropWhile_cons_of_neg space]
    unfold signOf
    split
    next same =>
      obtain ⟨rfl,rfl⟩ := List.cons.inj same
      simp [List.takeWhile_cons,show isHexDigit 45 = false by decide]
    next same =>
      obtain ⟨rfl,rfl⟩ := List.cons.inj same
      simp [List.takeWhile_cons,show isHexDigit 43 = false by decide]
    next minus plus =>
      have unsigned : a ≠ 43 ∧ a ≠ 45 :=
        ⟨fun same => plus [b] (by rw [same]),fun same => minus [b] (by rw [same])⟩
      simp [List.takeWhile_cons,space,unsigned.1,unsigned.2]

/-- A number is found exactly in a readable piece. -/
theorem stoul_isSome (a b : UInt8) : (stoul [a,b]).isSome = true ↔ Readable (a,b) := by
  rw [← digitsOf_ne_nil,stoul_piece]
  split <;> simp_all

/-- A proper piece is read as its two digits. -/
theorem stoul_hex {a b : UInt8} {x y : Nat} (high : hexValue a = some x) (low : hexValue b = some y) :
    stoul [a,b] = some (UInt64.ofNat (16 * x + y)) := by
  have digitA : isHexDigit a = true := by simp [isHexDigit,high]
  have digitB : isHexDigit b = true := by simp [isHexDigit,low]
  have visible : ¬ isSpace a = true := fun space => by
    rw [not_hex_of_space space] at digitA
    cases digitA
  have unsigned : signOf [a,b] = (false,[a,b]) := by
    unfold signOf
    split
    next same =>
      obtain ⟨rfl,rfl⟩ := List.cons.inj same
      exact absurd digitA (by decide)
    next same =>
      obtain ⟨rfl,rfl⟩ := List.cons.inj same
      exact absurd digitA (by decide)
    next => rfl
  have digits : digitsOf [a,b] = [a,b] := by
    rw [digitsOf,List.dropWhile_cons_of_neg visible,unsigned]
    simp [digitA,digitB]
  rw [stoul_piece,digits,List.dropWhile_cons_of_neg visible,unsigned]
  simp [hexDigitsValue,high,low]

end pieces

section strings

/-- The loop ends without an exception exactly when every piece is readable, with one byte each. -/
theorem fromHexPairs_isSome (s : Bytes) :
    (fromHexPairs s).isSome = true ↔ ∀ piece ∈ pieces s, Readable piece := by
  fun_induction fromHexPairs s with
  | case1 a b rest ih =>
    rw [pieces,List.forall_mem_cons,← stoul_isSome,← ih]
    cases stoul [a,b] <;> cases fromHexPairs rest <;> simp
  | case2 s short =>
    rw [pieces.eq_2 s short]
    simp

theorem fromHexPairs_length {s data : Bytes} (decoded : fromHexPairs s = some data) :
    data.length = s.length / 2 := by
  fun_induction fromHexPairs s generalizing data with
  | case1 a b rest ih =>
    simp only [Option.bind_eq_bind,Option.bind_eq_some_iff,Option.some.injEq] at decoded
    obtain ⟨value,-,result,later,rfl⟩ := decoded
    rw [List.length_cons,ih later,List.length_cons,List.length_cons]
    omega
  | case2 s short =>
    cases decoded
    match s, short with
    | [], _ => rfl
    | [_], _ => simp
    | a :: b :: rest, short => exact (short a b rest rfl).elim

/-- Digits decode to the bytes that are written with them. -/
theorem fromHexPairs_digits {s : Bytes} (even : s.length % 2 = 0)
    (digits : ∀ b ∈ s, isHexDigit b = true) :
    ∃ data, fromHexPairs s = some data ∧ toHex data = lower s := by
  fun_induction fromHexPairs s with
  | case1 a b rest ih =>
    obtain ⟨digitA,digits⟩ := List.forall_mem_cons.mp digits
    obtain ⟨digitB,digits⟩ := List.forall_mem_cons.mp digits
    obtain ⟨x,high⟩ := Option.isSome_iff_exists.mp digitA
    obtain ⟨y,low⟩ := Option.isSome_iff_exists.mp digitB
    obtain ⟨data,decoded,encoded⟩ := ih (by simp only [List.length_cons] at even; omega) digits
    have smallX := hexValue_small high
    have smallY := hexValue_small low
    have byte : (UInt64.ofNat (16 * x + y)).toUInt8.toNat = 16 * x + y := by
      simp
      omega
    refine ⟨_,by rw [stoul_hex high low,decoded]; rfl,?_⟩
    rw [toHex_cons,byte,show (16 * x + y) / 16 = x by omega,show (16 * x + y) % 16 = y by omega,
      hexDigit_hexValue high,hexDigit_hexValue low,encoded]
    rfl
  | case2 s short =>
    match s, short with
    | [], _ => exact ⟨[],rfl,rfl⟩
    | [_], _ => simp at even
    | a :: b :: rest, short => exact (short a b rest rfl).elim

theorem readable_of_digits {s : Bytes} (digits : ∀ b ∈ s, isHexDigit b = true) :
    ∀ piece ∈ pieces s, Readable piece := by
  fun_induction pieces s with
  | case1 a b rest ih =>
    obtain ⟨digitA,digits⟩ := List.forall_mem_cons.mp digits
    exact List.forall_mem_cons.mpr ⟨.inl digitA,ih (List.forall_mem_cons.mp digits).2⟩
  | case2 => simp

/-- The language `fromHex` really accepts. -/
theorem fromHex_ne_nil (s : Bytes) :
    fromHex s ≠ [] ↔ s ≠ [] ∧ s.length % 2 = 0 ∧ ∀ piece ∈ pieces s, Readable piece := by
  unfold fromHex
  by_cases even : s.length % 2 = 0
  · rw [if_neg (not_not.mpr even),← fromHexPairs_isSome]
    cases decoded : fromHexPairs s with
    | none => simp
    | some data =>
      have length := fromHexPairs_length decoded
      simp only [Option.getD_some,Option.isSome_some,and_true,even]
      rw [not_iff_not,← List.length_eq_zero_iff,← List.length_eq_zero_iff]
      omega
  · rw [if_pos even]
    simp [even]

end strings

/-- `fromHex` does what it promises exactly of the strings that are not misread. -/
theorem decodesExactly_iff (s : Bytes) : DecodesExactly s ↔ ¬ Misread s := by
  constructor
  · rintro exact ⟨even,readable,b,member,invalid⟩
    have accepted := (fromHex_ne_nil s).mpr ⟨List.ne_nil_of_mem member,even,readable⟩
    rw [(exact.accepted.mp accepted).digits b member] at invalid
    cases invalid
  · intro proper
    have accepted : fromHex s ≠ [] ↔ IsHex s := by
      rw [fromHex_ne_nil]
      constructor
      · rintro ⟨nonempty,even,readable⟩
        refine ⟨nonempty,even,fun b member => ?_⟩
        by_contra invalid
        exact proper ⟨even,readable,b,member,Bool.eq_false_iff.mpr invalid⟩
      · intro hex
        exact ⟨hex.nonempty,hex.even,readable_of_digits hex.digits⟩
    refine ⟨accepted,fun hex => ?_,fun invalid => not_not.mp (mt accepted.mp invalid)⟩
    obtain ⟨data,decoded,encoded⟩ := fromHexPairs_digits hex.even hex.digits
    rw [fromHex,if_neg (not_not.mpr hex.even),decoded]
    exact encoded

/-- A digit before any other character is a number to `std::stoul`: `1g` is decoded. -/
theorem fromHex_misreads : ¬ ∀ s, DecodesExactly s := by
  intro always
  have invalid : ¬ IsHex (str "1g") := fun hex => absurd (hex.digits 103 (by decide)) (by decide)
  exact absurd ((always (str "1g")).refused invalid) (by decide)

end TitanCore
