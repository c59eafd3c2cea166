import TitanCore.Keys

/-! What `dump` does with a string that is not UTF-8: it throws, with a text that says where
the decoder stopped. -/
namespace TitanCore

namespace Json

/-- What must follow a leading byte, as ranges of bytes; `none` for a byte that cannot lead. -/
def following (a : UInt8) : Option (List (Nat × Nat)) :=
  if a.toNat < 128 then some []
  else if 194 ≤ a.toNat ∧ a.toNat ≤ 223 then some [(128,191)]
  else if 224 ≤ a.toNat ∧ a.toNat ≤ 239 then
    some [(if a = 224 then 160 else 128,if a = 237 then 159 else 191),(128,191)]
  else if 240 ≤ a.toNat ∧ a.toNat ≤ 244 then
    some [(if a = 240 then 144 else 128,if a = 244 then 143 else 191),(128,191),(128,191)]
  else none

/-- A byte that cannot stand where it does, or a string that ends inside a character. -/
inductive Utf8Fault where
  | invalid (index : Nat) (byte : UInt8)
  | incomplete (last : UInt8)
  deriving DecidableEq

/-- The decoder of `dump`, between two bytes: the index of the next one, the last one read and
what the character begun by it still needs. -/
def decodeUtf8 (index : Nat) (last : UInt8) : List (Nat × Nat) → Bytes → Option Utf8Fault
  | [],[] => none
  | _ :: _,[] => some (.incomplete last)
  | [],b :: rest =>
    match following b with
    | some ranges => decodeUtf8 (index + 1) b ranges rest
    | none => some (.invalid index b)
  | (low,high) :: ranges,b :: rest =>
    if continues low high b then decodeUtf8 (index + 1) b ranges rest
    else some (.invalid index b)

def hexBytes (b : UInt8) : Bytes :=
  let digit := fun n => if n < 10 then UInt8.ofNat (48 + n) else UInt8.ofNat (55 + n)
  [digit (b.toNat / 16),digit (b.toNat % 16)]

def Utf8Fault.text : Utf8Fault → Bytes
  | .invalid index byte => str "invalid UTF-8 byte at index " ++ decimal index ++ str ": 0x" ++ hexBytes byte
  | .incomplete last => str "incomplete UTF-8 string; last byte: 0x" ++ hexBytes last

def stringFault (s : Bytes) : Option Utf8Fault := decodeUtf8 0 0 [] s

mutual
/-- The fault `dump` meets first. -/
def dumpFault : Json → Option Utf8Fault
  | .string s => stringFault s
  | .array elems => elementsFault elems
  | .object fields => fieldsFault fields
  | _ => none

def elementsFault : List Json → Option Utf8Fault
  | [] => none
  | j :: rest => (dumpFault j).or (elementsFault rest)

def fieldsFault : List (Bytes × Json) → Option Utf8Fault
  | [] => none
  | (k,v) :: rest => (stringFault k).or ((dumpFault v).or (fieldsFault rest))
end

theorem decodeUtf8_valid (s : Bytes) : ∀ index last,
    decodeUtf8 index last [] s = none ↔ utf8Valid s = true := by
  induction s using utf8Valid.induct with
  | case1 => simp [decodeUtf8,utf8Valid]
  | case2 a rest ascii ih =>
    intro index last
    rw [utf8Valid.eq_def]
    simp only [decodeUtf8,following,if_pos ascii]
    exact ih _ _
  | case3 a wide =>
    intro index last
    rw [utf8Valid.eq_def]
    simp only [decodeUtf8,following,if_neg wide]
    split_ifs <;> simp [decodeUtf8]
  | case4 a wide b rest two ih =>
    intro index last
    rw [utf8Valid.eq_def]
    simp only [decodeUtf8,following,if_neg wide,if_pos two]
    cases continues 128 191 b <;> simp [ih]
  | case5 a wide b more =>
    intro index last
    rw [utf8Valid.eq_def]
    simp only [decodeUtf8,following,if_neg wide,if_neg more]
    split_ifs <;> simp only [decodeUtf8] <;> split_ifs <;> simp
  | case6 a wide b more c rest three ih =>
    intro index last
    rw [utf8Valid.eq_def]
    simp only [decodeUtf8,following,if_neg wide,if_neg more,if_pos three]
    cases continues (if a = 224 then 160 else 128) (if a = 237 then 159 else 191) b <;>
      cases continues 128 191 c <;> simp [ih]
  | case7 a wide b more c most =>
    intro index last
    rw [utf8Valid.eq_def]
    simp only [decodeUtf8,following,if_neg wide,if_neg more,if_neg most]
    split_ifs <;> simp only [decodeUtf8] <;> split_ifs <;> simp
  | case8 a wide b more c most d rest ih =>
    intro index last
    rw [utf8Valid.eq_def]
    simp only [decodeUtf8,following,if_neg wide,if_neg more,if_neg most]
    by_cases four : 240 ≤ a.toNat ∧ a.toNat ≤ 244
    · rw [if_pos four,decide_eq_true four]
      cases second : continues (if a = 240 then 144 else 128) (if a = 244 then 143 else 191) b <;>
        cases third : continues 128 191 c <;> cases fourth : continues 128 191 d <;>
        simp [decodeUtf8,second,third,fourth,ih]
    · rw [if_neg four]
      simp [four]

theorem stringFault_eq_none {s : Bytes} : stringFault s = none ↔ utf8Valid s = true :=
  decodeUtf8_valid s 0 0

/-- Plain text in front of a string changes nothing. -/
theorem utf8Valid_append {front : Bytes} (ascii : ∀ b ∈ front, b.toNat < 128) (s : Bytes) :
    utf8Valid (front ++ s) = utf8Valid s := by
  induction front with
  | nil => rfl
  | cons b front ih =>
    rw [List.cons_append,utf8Valid.eq_def]
    simp only [if_pos (ascii b (by simp))]
    exact ih fun c hc => ascii c (List.mem_cons_of_mem _ hc)

mutual
/-- What the program builds of valid strings can be dumped. -/
theorem dumpFault_canonical : ∀ j : Json, j.canonical = true → j.dumpFault = none
  | .null,_ => rfl
  | .boolean _,_ => rfl
  | .unsigned _,_ => rfl
  | .integer _,_ => rfl
  | .float _,_ => rfl
  | .string _,valid => stringFault_eq_none.mpr valid
  | .array elems,valid => elementsFault_canonical elems valid
  | .object fields,valid => by
    rw [canonical,Bool.and_eq_true] at valid
    exact fieldsFault_canonical fields valid.2

theorem elementsFault_canonical : ∀ elems, canonicalElems elems = true → elementsFault elems = none
  | [],_ => rfl
  | j :: rest,valid => by
    rw [canonicalElems,Bool.and_eq_true] at valid
    rw [elementsFault,dumpFault_canonical j valid.1,elementsFault_canonical rest valid.2]
    rfl

theorem fieldsFault_canonical : ∀ fields, canonicalFields fields = true → fieldsFault fields = none
  | [],_ => rfl
  | (k,v) :: rest,valid => by
    rw [canonicalFields,Bool.and_eq_true,Bool.and_eq_true] at valid
    rw [fieldsFault,stringFault_eq_none.mpr valid.1.1,dumpFault_canonical v valid.1.2,
      fieldsFault_canonical rest valid.2]
    rfl
end

theorem findField_fault {key : Bytes} {fields : List (Bytes × Json)} {j : Json}
    (clean : fieldsFault fields = none) (found : findField key fields = some j) :
    j.dumpFault = none := by
  induction fields with
  | nil => cases found
  | cons field rest ih =>
    obtain ⟨k,v⟩ := field
    simp only [fieldsFault,Option.or_eq_none_iff] at clean
    obtain ⟨-,head,tail⟩ := clean
    unfold findField at found
    split_ifs at found
    · cases found
      exact head
    · exact ih tail found

theorem find?_fault {j field : Json} {key : Bytes} (clean : j.dumpFault = none)
    (found : j.find? key = some field) : field.dumpFault = none := by
  cases j with
  | object fields =>
    simp only [dumpFault] at clean
    exact findField_fault clean found
  | _ => cases found

end Json

/-- Documented of the parser: a text that is not UTF-8 does not parse, so `dump` takes every
value it returns. -/
def Externals.ParsesUtf8 (ext : Externals) : Prop :=
  ∀ body j, ext.parse body = .ok j → j.dumpFault = none

end TitanCore
