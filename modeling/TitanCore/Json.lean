import TitanCore.Bytes

/-! JSON values with the kinds nlohmann keeps apart, the accessors that throw, and the
compact text `dump` prints. Objects are `std::map`s: their keys are sorted. -/
namespace TitanCore

inductive ExnKind where
  | parseError
  | typeError
  | outOfRange
  | runtimeError
  | invalidArgument
  deriving DecidableEq

structure Exn where
  kind : ExnKind
  what : Bytes
  deriving DecidableEq

def Exn.runtimeError (what : Bytes) : Exn := ⟨.runtimeError,what⟩
def Exn.invalidArgument (what : Bytes) : Exn := ⟨.invalidArgument,what⟩

@[simp] theorem ok_bind {ε α β : Type} (a : α) (f : α → Except ε β) : (Except.ok a >>= f) = f a := rfl

@[simp] theorem error_bind {ε α β : Type} (e : ε) (f : α → Except ε β) :
    (Except.error e >>= f) = .error e := rfl

/-- A finite binary64 number, ±mantissa·2^exponent. -/
structure Double where
  negative : Bool
  mantissa : Nat
  exponent : Int
  deriving DecidableEq

/-- The cast to an unsigned integer, which truncates. It is undefined outside the target's
range; the model then takes the residue, with zero for a negative value. -/
def Double.toUInt64 (x : Double) : UInt64 :=
  if x.negative then 0
  else if 0 ≤ x.exponent then UInt64.ofNat (x.mantissa * 2 ^ x.exponent.toNat)
  else UInt64.ofNat (x.mantissa / 2 ^ (-x.exponent).toNat)

def Double.truncate (x : Double) : Int :=
  let magnitude := if 0 ≤ x.exponent then x.mantissa * 2 ^ x.exponent.toNat
    else x.mantissa / 2 ^ (-x.exponent).toNat
  if x.negative then -magnitude else magnitude

inductive Json where
  | null
  | boolean (b : Bool)
  | unsigned (n : UInt64)
  | integer (n : Int64)
  | float (x : Double)
  | string (s : Bytes)
  | array (elems : List Json)
  | object (fields : List (Bytes × Json))

namespace Json

def typeName : Json → Bytes
  | .null => str "null"
  | .boolean _ => str "boolean"
  | .unsigned _ | .integer _ | .float _ => str "number"
  | .string _ => str "string"
  | .array _ => str "array"
  | .object _ => str "object"

def typeError (id : String) (text : Bytes) : Exn :=
  ⟨.typeError,str "[json.exception.type_error." ++ str id ++ str "] " ++ text⟩

def isNull : Json → Bool
  | .null => true
  | _ => false

/-- `operator[]=` of an object, which keeps the keys sorted. -/
def insertField (key : Bytes) (value : Json) : List (Bytes × Json) → List (Bytes × Json)
  | [] => [(key,value)]
  | (k,v) :: rest =>
    if key = k then (k,value) :: rest
    else if Bytes.less key k then (key,value) :: (k,v) :: rest
    else (k,v) :: insertField key value rest

/-- `j[key] = value`; a null value becomes an object first. -/
def set (j : Json) (key : Bytes) (value : Json) : Json :=
  match j with
  | .object fields => .object (insertField key value fields)
  | _ => .object [(key,value)]

def findField (key : Bytes) : List (Bytes × Json) → Option Json
  | [] => none
  | (k,v) :: rest => if key = k then some v else findField key rest

/-- `j.at(key)`. -/
def at? (j : Json) (key : Bytes) : Except Exn Json :=
  match j with
  | .object fields =>
    match findField key fields with
    | some v => .ok v
    | none => .error ⟨.outOfRange,
        str "[json.exception.out_of_range.403] key '" ++ key ++ str "' not found"⟩
  | j => .error (typeError "304" (str "cannot use at() with " ++ j.typeName))

/-- `j[key]` of a value that is not constant: a missing field, or a field of null, is null. -/
def index (j : Json) (key : Bytes) : Except Exn Json :=
  match j with
  | .object fields => .ok ((findField key fields).getD .null)
  | .null => .ok .null
  | j => .error (typeError "305"
      (str "cannot use operator[] with a string argument with " ++ j.typeName))

/-- `j.contains(key)` and, where it does, `j[key]`. -/
def find? (j : Json) (key : Bytes) : Option Json :=
  match j with
  | .object fields => findField key fields
  | _ => none

/-- `j.value(key, default)`. -/
def value (j : Json) (key : Bytes) (default : Json) : Except Exn Json :=
  match j with
  | .object fields => .ok ((findField key fields).getD default)
  | j => .error (typeError "306" (str "cannot use value() with " ++ j.typeName))

/-- `j.get<std::string>()`. -/
def getString : Json → Except Exn Bytes
  | .string s => .ok s
  | j => .error (typeError "302" (str "type must be string, but is " ++ j.typeName))

/-- `j.get<uint64_t>()`: any stored number is cast, other kinds throw. -/
def getUInt64 : Json → Except Exn UInt64
  | .unsigned n => .ok n
  | .integer n => .ok n.toUInt64
  | .float x => .ok x.toUInt64
  | j => .error (typeError "302" (str "type must be number, but is " ++ j.typeName))

/-- `j.get<int>()`: the cast also takes a boolean. -/
def getInt : Json → Except Exn Int32
  | .boolean b => .ok (if b then 1 else 0)
  | .unsigned n => .ok n.toInt64.toInt32
  | .integer n => .ok n.toInt32
  | .float x => .ok (Int32.ofInt x.truncate)
  | j => .error (typeError "302" (str "type must be number, but is " ++ j.typeName))

/-- What a range-for over a value visits: an object's values, and a scalar once. -/
def elements : Json → List Json
  | .array elems => elems
  | .object fields => fields.map Prod.snd
  | .null => []
  | j => [j]

def escapeByte (b : UInt8) : Bytes :=
  if b = 34 then [92,34]
  else if b = 92 then [92,92]
  else if b = 8 then [92,98]
  else if b = 9 then [92,116]
  else if b = 10 then [92,110]
  else if b = 12 then [92,102]
  else if b = 13 then [92,114]
  else if b.toNat < 32 then [92,117,48,48,hexDigit (b.toNat / 16),hexDigit (b.toNat % 16)]
  else [b]

def quote (s : Bytes) : Bytes := 34 :: (s.flatMap escapeByte ++ [34])

section
variable (formatDouble : Double → Bytes)

mutual
/-- `j.dump()`: compact, keys in order. The shortest text of a double is the library's. -/
def dump : Json → Bytes
  | .null => str "null"
  | .boolean true => str "true"
  | .boolean false => str "false"
  | .unsigned n => decimal n.toNat
  | .integer n => if n.toInt < 0 then 45 :: decimal n.toInt.natAbs else decimal n.toInt.natAbs
  | .float x => formatDouble x
  | .string s => quote s
  | .array [] => [91,93]
  | .array (j :: rest) => 91 :: (dump j ++ dumpRest rest)
  | .object [] => [123,125]
  | .object ((k,v) :: rest) => 123 :: (quote k ++ 58 :: (dump v ++ dumpFields rest))

def dumpRest : List Json → Bytes
  | [] => [93]
  | j :: rest => 44 :: (dump j ++ dumpRest rest)

def dumpFields : List (Bytes × Json) → Bytes
  | [] => [125]
  | (k,v) :: rest => 44 :: (quote k ++ 58 :: (dump v ++ dumpFields rest))
end

end

def continues (low high : Nat) (b : UInt8) : Bool := decide (low ≤ b.toNat) && decide (b.toNat ≤ high)

/-- Well-formed UTF-8, which `dump` demands of every string. -/
def utf8Valid : Bytes → Bool
  | [] => true
  | a :: rest =>
    if a.toNat < 128 then utf8Valid rest
    else match rest with
      | [] => false
      | b :: rest =>
        if 194 ≤ a.toNat ∧ a.toNat ≤ 223 then continues 128 191 b && utf8Valid rest
        else match rest with
          | [] => false
          | c :: rest =>
            if 224 ≤ a.toNat ∧ a.toNat ≤ 239 then
              continues (if a = 224 then 160 else 128) (if a = 237 then 159 else 191) b &&
                continues 128 191 c && utf8Valid rest
            else match rest with
              | [] => false
              | d :: rest =>
                decide (240 ≤ a.toNat ∧ a.toNat ≤ 244) &&
                  continues (if a = 240 then 144 else 128) (if a = 244 then 143 else 191) b &&
                  continues 128 191 c && continues 128 191 d && utf8Valid rest

theorem utf8Valid_ascii {s : Bytes} (ascii : ∀ b ∈ s, b.toNat < 128) : utf8Valid s = true := by
  induction s with
  | nil => rfl
  | cons b s ih =>
    rw [utf8Valid.eq_def]
    simp only [if_pos (ascii b (by simp))]
    exact ih fun c hc => ascii c (List.mem_cons_of_mem _ hc)

/-- The keys of an object in strictly ascending order, as a `std::map` holds them. -/
def keysSorted : List (Bytes × Json) → Bool
  | [] => true
  | [_] => true
  | (k,_) :: (l,w) :: rest => Bytes.less k l && keysSorted ((l,w) :: rest)

mutual
/-- The values a parser can return for their own dump: well-formed strings, sorted keys,
non-negative integers stored as unsigned ones, and no floating number. -/
def canonical : Json → Bool
  | .null => true
  | .boolean _ => true
  | .unsigned _ => true
  | .integer n => decide (n.toInt < 0)
  | .float _ => false
  | .string s => utf8Valid s
  | .array elems => canonicalElems elems
  | .object fields => keysSorted fields && canonicalFields fields

def canonicalElems : List Json → Bool
  | [] => true
  | j :: rest => canonical j && canonicalElems rest

def canonicalFields : List (Bytes × Json) → Bool
  | [] => true
  | (k,v) :: rest => utf8Valid k && canonical v && canonicalFields rest
end

@[simp] theorem canonicalElems_iff (elems : List Json) :
    canonicalElems elems = true ↔ ∀ j ∈ elems, canonical j = true := by
  induction elems with
  | nil => simp [canonicalElems]
  | cons j rest ih => simp [canonicalElems,ih]

/-- Every element costs its own text and one more byte, a comma or a bracket. -/
theorem dumpRest_length (formatDouble : Double → Bytes) (elems : List Json) :
    (dumpRest formatDouble elems).length =
      (elems.map fun j => (dump formatDouble j).length + 1).sum + 1 := by
  induction elems with
  | nil => simp [dumpRest]
  | cons j rest ih =>
    simp only [dumpRest,List.length_cons,List.length_append,List.map_cons,List.sum_cons,ih]
    omega

end Json
end TitanCore
