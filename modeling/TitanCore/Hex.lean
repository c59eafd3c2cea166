import TitanCore.Json

/-! Hexadecimal encoding of binary fields, with `std::stoul` as permissive as it is. -/
namespace TitanCore

abbrev Hash := ByteArr 32
abbrev Address := ByteArr 20
abbrev PublicKey := ByteArr 33
abbrev PrivateKey := ByteArr 32
abbrev Signature := Bytes

def toHex (data : Bytes) : Bytes :=
  data.flatMap fun byte => [hexDigit (byte.toNat / 16),hexDigit (byte.toNat % 16)]

def isHexDigit (b : UInt8) : Bool := (hexValue b).isSome

def hexDigitsValue (digits : Bytes) : Nat :=
  digits.foldl (fun v b => 16 * v + (hexValue b).getD 0) 0

/-- An optional `0x`, which counts only when a hexadecimal digit follows. -/
def dropHexPrefix : Bytes → Bytes
  | 48 :: x :: d :: rest =>
    if (x = 120 ∨ x = 88) ∧ isHexDigit d = true then d :: rest else 48 :: x :: d :: rest
  | s => s

/-- `std::stoul(s, nullptr, 16)`; `none` is the exception it throws. -/
def stoul (s : Bytes) : Option UInt64 :=
  let (negative,body) := signOf (s.dropWhile isSpace)
  let digits := (dropHexPrefix body).takeWhile isHexDigit
  let value := hexDigitsValue digits
  if digits.isEmpty ∨ 2 ^ 64 ≤ value then none
  else some (if negative then 0 - UInt64.ofNat value else UInt64.ofNat value)

/-- The loop of `fromHex` over two-character pieces; `none` is the caught exception. -/
def fromHexPairs : Bytes → Option Bytes
  | a :: b :: rest => do
    let value ← stoul [a,b]
    let result ← fromHexPairs rest
    some (value.toUInt8 :: result)
  | _ => some []

/-- Empty on invalid input. -/
def fromHex (hex : Bytes) : Bytes :=
  if hex.length % 2 ≠ 0 then [] else (fromHexPairs hex).getD []

/-- Decoded bytes as a fixed-size array, or the exception of the calling site. -/
def toArray (n : Nat) (bytes : Bytes) (failure : Exn) : Except Exn (ByteArr n) :=
  if h : bytes.length = n then .ok ⟨bytes,h⟩ else .error failure

def hexToArray (n : Nat) (hex : Bytes) : Except Exn (ByteArr n) :=
  toArray n (fromHex hex) (.runtimeError (str "Invalid hex length: expected " ++ decimal (n * 2) ++
    str " chars, got " ++ decimal hex.length))

def fromHexFixed (n : Nat) (hex : Bytes) : Except Exn (ByteArr n) :=
  toArray n (fromHex hex) (.invalidArgument (str "fromHexFixed: expected " ++ decimal n ++
    str " bytes, got " ++ decimal (fromHex hex).length))

@[simp] theorem toHex_nil : toHex [] = [] := rfl

@[simp] theorem toHex_cons (b : UInt8) (data : Bytes) :
    toHex (b :: data) = hexDigit (b.toNat / 16) :: hexDigit (b.toNat % 16) :: toHex data := rfl

@[simp] theorem toHex_length (data : Bytes) : (toHex data).length = 2 * data.length := by
  induction data with
  | nil => rfl
  | cons b data ih =>
    simp only [toHex_cons,List.length_cons,ih]
    omega

/-- What the pieces of an encoded array look like to `stoul`. -/
theorem stoul_hexDigits : ∀ i j : Fin 16,
    stoul [hexDigit i.val,hexDigit j.val] = some (UInt64.ofNat (16 * i.val + j.val)) := by
  decide +kernel

theorem fromHexPairs_toHex (data : Bytes) : fromHexPairs (toHex data) = some data := by
  induction data with
  | nil => rfl
  | cons b data ih =>
    have small := b.toNat_lt
    have piece := stoul_hexDigits ⟨b.toNat / 16,by omega⟩ ⟨b.toNat % 16,by omega⟩
    have value : (UInt64.ofNat (16 * (b.toNat / 16) + b.toNat % 16)).toUInt8 = b := by
      rw [Nat.div_add_mod]
      apply UInt8.toNat.inj
      simp
    simp only [toHex_cons,fromHexPairs,piece,ih,Option.bind_eq_bind,Option.bind_some,value]

@[simp] theorem fromHex_toHex (data : Bytes) : fromHex (toHex data) = data := by
  simp [fromHex,fromHexPairs_toHex]

theorem toHex_injective : Function.Injective toHex := by
  intro a b same
  rw [← fromHex_toHex a,same,fromHex_toHex]

@[simp] theorem hexToArray_toHex {n : Nat} (data : ByteArr n) :
    hexToArray n (toHex data.val) = .ok data := by
  simp [hexToArray,toArray,data.2]

theorem hexDigit_bounds (n : Nat) (small : n < 16) : (hexDigit n).toNat < 128 ∧ 48 ≤ (hexDigit n).toNat := by
  have table : ∀ m : Fin 16, (hexDigit m.val).toNat < 128 ∧ 48 ≤ (hexDigit m.val).toNat := by decide
  exact table ⟨n,small⟩

theorem toHex_ascii (data : Bytes) : ∀ b ∈ toHex data, b.toNat < 128 ∧ 48 ≤ b.toNat := by
  induction data with
  | nil => simp
  | cons b data ih =>
    have small := b.toNat_lt
    intro c member
    simp only [toHex_cons,List.mem_cons] at member
    rcases member with rfl | rfl | member
    · exact hexDigit_bounds _ (by omega)
    · exact hexDigit_bounds _ (by omega)
    · exact ih c member

@[simp] theorem utf8Valid_toHex (data : Bytes) : Json.utf8Valid (toHex data) = true :=
  Json.utf8Valid_ascii fun b member => (toHex_ascii data b member).1

end TitanCore
