import TitanCore.Json

/-! A reader for compact JSON text and its round trip with `dump`. The reader is a
reference: it shows that `dump` loses nothing, so that two canonical values with the
same text are equal. -/
namespace TitanCore.Json

def expect (literal input : Bytes) : Option Bytes :=
  if literal.isPrefixOf input then some (input.drop literal.length) else none

/-- The byte an escape sequence stands for; the backslash is already consumed. -/
def readEscape : Bytes → Option (UInt8 × Bytes)
  | [] => none
  | c :: rest =>
    if c = 34 ∨ c = 92 then some (c,rest)
    else if c = 98 then some (8,rest)
    else if c = 116 then some (9,rest)
    else if c = 110 then some (10,rest)
    else if c = 102 then some (12,rest)
    else if c = 114 then some (13,rest)
    else match c,rest with
      | 117,48 :: 48 :: h :: l :: rest => do
        let high ← hexValue h
        let low ← hexValue l
        some (UInt8.ofNat (16 * high + low),rest)
      | _,_ => none

/-- A string up to its closing quote; the opening one is already consumed. -/
def readString : Nat → Bytes → Option (Bytes × Bytes)
  | 0,_ => none
  | _,[] => none
  | fuel + 1,b :: rest =>
    if b = 34 then some ([],rest)
    else if b = 92 then do
      let (c,rest) ← readEscape rest
      let (s,rest) ← readString fuel rest
      some (c :: s,rest)
    else do
      let (s,rest) ← readString fuel rest
      some (b :: s,rest)

def readDigits (input : Bytes) : Option (Nat × Bytes) :=
  let digits := input.takeWhile isDigit
  if digits.isEmpty then none else some (digitsValue 0 digits,input.dropWhile isDigit)

mutual
def readValue : Nat → Bytes → Option (Json × Bytes)
  | 0,_ => none
  | _,[] => none
  | fuel + 1,b :: rest =>
    if b = 110 then (expect [117,108,108] rest).map fun r => (.null,r)
    else if b = 116 then (expect [114,117,101] rest).map fun r => (.boolean true,r)
    else if b = 102 then (expect [97,108,115,101] rest).map fun r => (.boolean false,r)
    else if b = 34 then (readString fuel rest).map fun (s,r) => (.string s,r)
    else if b = 91 then (readElems fuel rest).map fun (elems,r) => (.array elems,r)
    else if b = 123 then (readObject fuel rest).map fun (fields,r) => (.object fields,r)
    else if b = 45 then (readDigits rest).map fun (n,r) => (.integer (Int64.ofInt (-(n : Int))),r)
    else (readDigits (b :: rest)).map fun (n,r) => (.unsigned (UInt64.ofNat n),r)

def readElems : Nat → Bytes → Option (List Json × Bytes)
  | 0,_ => none
  | fuel + 1,input =>
    if input.head? = some 93 then some ([],input.tail)
    else do
      let (j,rest) ← readValue fuel input
      let (elems,rest) ← readRest fuel rest
      some (j :: elems,rest)

def readRest : Nat → Bytes → Option (List Json × Bytes)
  | 0,_ => none
  | _,[] => none
  | fuel + 1,b :: rest =>
    if b = 93 then some ([],rest)
    else if b = 44 then do
      let (j,rest) ← readValue fuel rest
      let (elems,rest) ← readRest fuel rest
      some (j :: elems,rest)
    else none

def readObject : Nat → Bytes → Option (List (Bytes × Json) × Bytes)
  | 0,_ => none
  | fuel + 1,input =>
    if input.head? = some 125 then some ([],input.tail)
    else do
      let (k,v,rest) ← readField fuel input
      let (fields,rest) ← readFields fuel rest
      some ((k,v) :: fields,rest)

def readFields : Nat → Bytes → Option (List (Bytes × Json) × Bytes)
  | 0,_ => none
  | _,[] => none
  | fuel + 1,b :: rest =>
    if b = 125 then some ([],rest)
    else if b = 44 then do
      let (k,v,rest) ← readField fuel rest
      let (fields,rest) ← readFields fuel rest
      some ((k,v) :: fields,rest)
    else none

def readField : Nat → Bytes → Option (Bytes × Json × Bytes)
  | 0,_ => none
  | fuel + 1,input => do
    let rest ← expect [34] input
    let (k,rest) ← readString fuel rest
    let rest ← expect [58] rest
    let (v,rest) ← readValue fuel rest
    some (k,v,rest)
end

def read (input : Bytes) : Except Bytes Json :=
  match readValue input.length input with
  | some (j,[]) => .ok j
  | _ => .error (str "[json.exception.parse_error.101] parse error: syntax error")

/-- The text after a number must not continue it. -/
def NoDigit (rest : Bytes) : Prop := ∀ b tail, rest = b :: tail → isDigit b = false

theorem noDigit_cons {b : UInt8} {tail : Bytes} (h : isDigit b = false) : NoDigit (b :: tail) := by
  intro c rest same
  rw [← (List.cons.inj same).1]
  exact h

@[simp] theorem expect_append (literal rest : Bytes) : expect literal (literal ++ rest) = some rest := by
  have starts : literal.isPrefixOf (literal ++ rest) = true := by simp
  simp [expect,starts]

theorem readDigits_decimal (n : Nat) {rest : Bytes} (stop : NoDigit rest) :
    readDigits (decimal n ++ rest) = some (n,rest) := by
  have taken : (decimal n ++ rest).takeWhile isDigit = decimal n := by
    rw [List.takeWhile_append_of_pos (decimal_digits n)]
    cases rest with
    | nil => simp
    | cons b tail => simp [stop b tail rfl]
  have dropped : (decimal n ++ rest).dropWhile isDigit = rest := by
    rw [List.dropWhile_append_of_pos (decimal_digits n)]
    cases rest with
    | nil => simp
    | cons b tail => simp [stop b tail rfl]
  simp [readDigits,taken,dropped,decimal_ne_nil]

/-- Every escape sequence reads back as the byte it was printed for. -/
theorem readString_escapeByte (fuel : Nat) (b : UInt8) (rest : Bytes) :
    readString (fuel + 1) (escapeByte b ++ rest) =
      (readString fuel rest).map fun (s,r) => (b :: s,r) := by
  have control : b.toNat < 32 → 16 * UInt8.ofNat (b.toNat / 16) + UInt8.ofNat (b.toNat % 16) = b ∧
      hexValue (hexDigit (b.toNat / 16)) = some (b.toNat / 16) ∧
      hexValue (hexDigit (b.toNat % 16)) = some (b.toNat % 16) := by
    intro small
    refine ⟨?_,hexValue_hexDigit (by omega),hexValue_hexDigit (by omega)⟩
    have value : UInt8.ofNat (16 * (b.toNat / 16) + b.toNat % 16) = b := by
      rw [Nat.div_add_mod]
      simp
    simpa using value
  unfold escapeByte
  split_ifs with _ _ _ _ _ _ _ small
  -- The seven short escapes are constants; the last two cases depend on the byte.
  any_goals (subst b; cases read : readString fuel rest <;> simp [readString,readEscape,read])
  · obtain ⟨value,high,low⟩ := control small
    cases read : readString fuel rest <;> simp [readString,readEscape,high,low,read,value]
  · cases read : readString fuel rest <;> simp_all [readString]

theorem readString_quote (s rest : Bytes) (fuel : Nat) (enough : s.length < fuel) :
    readString fuel (s.flatMap escapeByte ++ 34 :: rest) = some (s,rest) := by
  induction s generalizing fuel with
  | nil =>
    obtain ⟨fuel,rfl⟩ : ∃ k, fuel = k + 1 := ⟨fuel - 1,by simp at enough; omega⟩
    simp [readString]
  | cons b s ih =>
    obtain ⟨fuel,rfl⟩ : ∃ k, fuel = k + 1 := ⟨fuel - 1,by simp at enough; omega⟩
    rw [List.flatMap_cons,List.append_assoc,readString_escapeByte,
      ih fuel (by simpa using enough)]
    rfl

theorem escapeByte_length (b : UInt8) : 1 ≤ (escapeByte b).length := by
  unfold escapeByte
  split_ifs <;> simp

theorem length_le_quote (s : Bytes) : s.length + 2 ≤ (quote s).length := by
  have inner : s.length ≤ (s.flatMap escapeByte).length := by
    induction s with
    | nil => simp
    | cons b s ih =>
      have := escapeByte_length b
      simp only [List.flatMap_cons,List.length_append,List.length_cons]
      omega
  simp only [quote,List.length_cons,List.length_append,List.length_nil]
  omega

theorem decimal_cons (n : Nat) :
    ∃ b tail, decimal n = b :: tail ∧ isDigit b = true := by
  cases shape : decimal n with
  | nil => exact absurd shape (decimal_ne_nil n)
  | cons b tail => exact ⟨b,tail,rfl,decimal_digits n b (by simp [shape])⟩

/-- The first byte of a dump tells a value from the end of an array. -/
theorem dump_cons (formatDouble : Double → Bytes) (j : Json) (ok : canonical j = true) :
    ∃ b tail, dump formatDouble j = b :: tail ∧ b ≠ 93 := by
  have number (n : Nat) : ∃ b tail, decimal n = b :: tail ∧ b ≠ 93 := by
    obtain ⟨b,tail,shape,digit⟩ := decimal_cons n
    exact ⟨b,tail,shape,by rintro rfl; exact absurd digit (by decide)⟩
  cases j with
  | null => exact ⟨_,_,rfl,by decide⟩
  | boolean b => cases b <;> exact ⟨_,_,rfl,by decide⟩
  | unsigned n => simpa only [dump] using number n.toNat
  | integer n =>
    simp only [canonical,decide_eq_true_eq] at ok
    exact ⟨45,_,by rw [dump,if_pos ok],by decide⟩
  | float x => simp [canonical] at ok
  | string s => exact ⟨34,_,rfl,by decide⟩
  | array elems => cases elems <;> exact ⟨91,_,by rw [dump],by decide⟩
  | object fields =>
    rcases fields with _ | ⟨⟨k,v⟩,rest⟩ <;> exact ⟨123,_,by rw [dump],by decide⟩

theorem dumpRest_noDigit (formatDouble : Double → Bytes) (elems : List Json) (rest : Bytes) :
    NoDigit (dumpRest formatDouble elems ++ rest) := by
  cases elems <;> exact noDigit_cons (by decide)

theorem dumpFields_noDigit (formatDouble : Double → Bytes) (fields : List (Bytes × Json))
    (rest : Bytes) : NoDigit (dumpFields formatDouble fields ++ rest) := by
  rcases fields with _ | ⟨⟨k,v⟩,fields⟩ <;> exact noDigit_cons (by decide)

theorem readField_dump (formatDouble : Double → Bytes) (k : Bytes) (v : Json) (fuel : Nat)
    (rest : Bytes) (enough : (quote k).length ≤ fuel + 1)
    (read : readValue fuel (dump formatDouble v ++ rest) = some (v,rest)) :
    readField (fuel + 1) (quote k ++ 58 :: (dump formatDouble v ++ rest)) = some (k,v,rest) := by
  have size := length_le_quote k
  have opening := expect_append [34] (k.flatMap escapeByte ++ 34 :: 58 :: (dump formatDouble v ++ rest))
  have key := readString_quote k (58 :: (dump formatDouble v ++ rest)) fuel (by omega)
  have colon := expect_append [58] (dump formatDouble v ++ rest)
  simp only [List.cons_append,List.nil_append] at opening colon
  simp [readField,quote,opening,key,colon,read]

theorem dump_length_pos (formatDouble : Double → Bytes) (j : Json) (ok : canonical j = true) :
    0 < (dump formatDouble j).length := by
  obtain ⟨b,tail,shape,_⟩ := dump_cons formatDouble j ok
  simp [shape]

theorem dumpRest_length_pos (formatDouble : Double → Bytes) (elems : List Json) :
    0 < (dumpRest formatDouble elems).length := by
  cases elems <;> simp [dumpRest]

theorem dumpFields_length_pos (formatDouble : Double → Bytes) (fields : List (Bytes × Json)) :
    0 < (dumpFields formatDouble fields).length := by
  rcases fields with _ | ⟨⟨k,v⟩,fields⟩ <;> simp [dumpFields]

theorem readValue_cons (fuel : Nat) (b : UInt8) (rest : Bytes) :
    readValue (fuel + 1) (b :: rest) =
      if b = 110 then (expect [117,108,108] rest).map fun r => (.null,r)
      else if b = 116 then (expect [114,117,101] rest).map fun r => (.boolean true,r)
      else if b = 102 then (expect [97,108,115,101] rest).map fun r => (.boolean false,r)
      else if b = 34 then (readString fuel rest).map fun (s,r) => (.string s,r)
      else if b = 91 then (readElems fuel rest).map fun (elems,r) => (.array elems,r)
      else if b = 123 then (readObject fuel rest).map fun (fields,r) => (.object fields,r)
      else if b = 45 then (readDigits rest).map fun (n,r) => (.integer (Int64.ofInt (-(n : Int))),r)
      else (readDigits (b :: rest)).map fun (n,r) => (.unsigned (UInt64.ofNat n),r) := by
  rw [readValue]

theorem readValue_keyword (fuel : Nat) (rest : Bytes) :
    readValue (fuel + 1) (110 :: ([117,108,108] ++ rest)) = some (.null,rest) ∧
    readValue (fuel + 1) (116 :: ([114,117,101] ++ rest)) = some (.boolean true,rest) ∧
    readValue (fuel + 1) (102 :: ([97,108,115,101] ++ rest)) = some (.boolean false,rest) := by
  simp only [readValue_cons,expect_append]
  exact ⟨rfl,rfl,rfl⟩

theorem readValue_number (fuel n : Nat) {rest : Bytes} (stop : NoDigit rest) :
    readValue (fuel + 1) (decimal n ++ rest) = some (.unsigned (UInt64.ofNat n),rest) ∧
    readValue (fuel + 1) (45 :: (decimal n ++ rest)) =
      some (.integer (Int64.ofInt (-(n : Int))),rest) := by
  have read := readDigits_decimal n stop
  refine ⟨?_,?_⟩
  · obtain ⟨d,digits,first,digit⟩ := decimal_cons n
    rw [first,List.cons_append] at read ⊢
    have other (c : UInt8) (h : isDigit c = false) : d ≠ c := by
      rintro rfl
      rw [digit] at h
      cases h
    rw [readValue_cons,if_neg (other _ (by decide)),if_neg (other _ (by decide)),
      if_neg (other _ (by decide)),if_neg (other _ (by decide)),if_neg (other _ (by decide)),
      if_neg (other _ (by decide)),if_neg (other _ (by decide)),read]
    rfl
  · rw [readValue_cons,read]
    rfl

theorem integer_of_negative {n : Int64} (negative : n.toInt < 0) :
    Int64.ofInt (-(n.toInt.natAbs : Int)) = n := by
  have magnitude : -(n.toInt.natAbs : Int) = n.toInt := by omega
  rw [magnitude]
  exact Int64.ofInt_toInt n

theorem readElems_cons (formatDouble : Double → Bytes) (j : Json) (elems : List Json) (fuel : Nat)
    (rest : Bytes) (ok : canonical j = true)
    (first : readValue fuel (dump formatDouble j ++ (dumpRest formatDouble elems ++ rest)) =
      some (j,dumpRest formatDouble elems ++ rest))
    (others : readRest fuel (dumpRest formatDouble elems ++ rest) = some (elems,rest)) :
    readElems (fuel + 1) (dump formatDouble j ++ (dumpRest formatDouble elems ++ rest)) =
      some (j :: elems,rest) := by
  obtain ⟨b,tail,shape,other⟩ := dump_cons formatDouble j ok
  have notEnd : (dump formatDouble j ++ (dumpRest formatDouble elems ++ rest)).head? ≠ some 93 := by
    rw [shape]
    simpa using other
  rw [readElems,if_neg notEnd]
  simp [first,others]

section
variable (formatDouble : Double → Bytes)

mutual
/-- The reader inverts the writer whatever follows, given fuel for every byte. -/
theorem readValue_dump (j : Json) (ok : canonical j = true) (fuel : Nat) (rest : Bytes)
    (enough : (dump formatDouble j).length ≤ fuel) (stop : NoDigit rest) :
    readValue fuel (dump formatDouble j ++ rest) = some (j,rest) := by
  obtain ⟨b,tail,shape,_⟩ := dump_cons formatDouble j ok
  obtain ⟨fuel,rfl⟩ : ∃ k, fuel = k + 1 := ⟨fuel - 1,by rw [shape] at enough; simp at enough; omega⟩
  match j with
  | .null => exact (readValue_keyword fuel rest).1
  | .boolean true => exact (readValue_keyword fuel rest).2.1
  | .boolean false => exact (readValue_keyword fuel rest).2.2
  | .unsigned n =>
    rw [dump,(readValue_number fuel _ stop).1]
    simp
  | .integer n =>
    simp only [canonical,decide_eq_true_eq] at ok
    rw [dump,if_pos ok,List.cons_append,(readValue_number fuel _ stop).2,integer_of_negative ok]
  | .float x => simp [canonical] at ok
  | .string s =>
    have size := length_le_quote s
    simp only [dump] at enough
    have read := readString_quote s rest fuel (by omega)
    simp [dump,quote,readValue_cons,read]
  | .array [] =>
    simp only [dump,List.length_cons,List.length_nil] at enough
    obtain ⟨fuel,rfl⟩ : ∃ k, fuel = k + 1 := ⟨fuel - 1,by omega⟩
    simp [dump,readValue_cons,readElems]
  | .array (j :: elems) =>
    simp only [canonical,canonicalElems,Bool.and_eq_true] at ok
    have size := dump_length_pos formatDouble j ok.1
    have size' := dumpRest_length_pos formatDouble elems
    simp only [dump,List.length_cons,List.length_append] at enough
    obtain ⟨fuel,rfl⟩ : ∃ k, fuel = k + 1 := ⟨fuel - 1,by omega⟩
    have first := readValue_dump j ok.1 fuel (dumpRest formatDouble elems ++ rest) (by omega)
      (dumpRest_noDigit _ _ _)
    have others := readRest_dump elems ok.2 fuel rest (by omega)
    have read := readElems_cons formatDouble j elems fuel rest ok.1 first others
    simp only [dump,List.cons_append,List.append_assoc,readValue_cons]
    rw [read]
    rfl
  | .object [] => 
    simp only [dump,List.length_cons,List.length_nil] at enough
    obtain ⟨fuel,rfl⟩ : ∃ k, fuel = k + 1 := ⟨fuel - 1,by omega⟩
    simp [dump,readValue_cons,readObject]
  | .object ((k,v) :: fields) =>
    simp only [canonical,canonicalFields,Bool.and_eq_true] at ok
    have size := dump_length_pos formatDouble v ok.2.1.2
    have size' := dumpFields_length_pos formatDouble fields
    have size'' := length_le_quote k
    simp only [dump,List.length_cons,List.length_append] at enough
    obtain ⟨fuel,rfl⟩ : ∃ k, fuel = k + 2 := ⟨fuel - 2,by omega⟩
    have value := readValue_dump v ok.2.1.2 fuel (dumpFields formatDouble fields ++ rest) (by omega)
      (dumpFields_noDigit _ _ _)
    have first := readField_dump formatDouble k v fuel _ (by omega) value
    have others := readFields_dump fields ok.2.2 (fuel + 1) rest (by omega)
    have read : readObject (fuel + 2) (quote k ++ 58 :: (dump formatDouble v ++
        (dumpFields formatDouble fields ++ rest))) = some ((k,v) :: fields,rest) := by
      rw [readObject,if_neg (by simp [quote])]
      simp [first,others]
    simp only [dump,List.cons_append,List.append_assoc,readValue_cons]
    rw [read]
    rfl

theorem readRest_dump (elems : List Json) (ok : canonicalElems elems = true) (fuel : Nat)
    (rest : Bytes) (enough : (dumpRest formatDouble elems).length ≤ fuel) :
    readRest fuel (dumpRest formatDouble elems ++ rest) = some (elems,rest) := by
  have size := dumpRest_length_pos formatDouble elems
  obtain ⟨fuel,rfl⟩ : ∃ k, fuel = k + 1 := ⟨fuel - 1,by omega⟩
  match elems with
  | [] => simp [dumpRest,readRest]
  | j :: elems =>
    simp only [canonicalElems,Bool.and_eq_true] at ok
    simp only [dumpRest,List.length_cons,List.length_append] at enough
    have first := readValue_dump j ok.1 fuel (dumpRest formatDouble elems ++ rest) (by omega)
      (dumpRest_noDigit _ _ _)
    have others := readRest_dump elems ok.2 fuel rest (by omega)
    simp [dumpRest,readRest,first,others]

theorem readFields_dump (fields : List (Bytes × Json)) (ok : canonicalFields fields = true)
    (fuel : Nat) (rest : Bytes) (enough : (dumpFields formatDouble fields).length ≤ fuel) :
    readFields fuel (dumpFields formatDouble fields ++ rest) = some (fields,rest) := by
  have size := dumpFields_length_pos formatDouble fields
  obtain ⟨fuel,rfl⟩ : ∃ k, fuel = k + 1 := ⟨fuel - 1,by omega⟩
  match fields with
  | [] => simp [dumpFields,readFields]
  | (k,v) :: fields =>
    simp only [canonicalFields,Bool.and_eq_true] at ok
    have size' := dump_length_pos formatDouble v ok.1.2
    have size'' := length_le_quote k
    simp only [dumpFields,List.length_cons,List.length_append] at enough
    obtain ⟨fuel,rfl⟩ : ∃ k, fuel = k + 1 := ⟨fuel - 1,by omega⟩
    have value := readValue_dump v ok.1.2 fuel (dumpFields formatDouble fields ++ rest) (by omega)
      (dumpFields_noDigit _ _ _)
    have first := readField_dump formatDouble k v fuel _ (by omega) value
    have others := readFields_dump fields ok.2 (fuel + 1) rest (by omega)
    simp [dumpFields,readFields,first,others]
end

/-- Reading the whole dump of a canonical value gives the value. -/
theorem read_dump (j : Json) (ok : canonical j = true) : read (dump formatDouble j) = .ok j := by
  have whole := readValue_dump formatDouble j ok _ [] le_rfl (by intro b tail same; cases same)
  rw [List.append_nil] at whole
  simp [read,whole]

/-- Canonical values with the same text are equal. -/
theorem dump_injective {i j : Json} (hi : canonical i = true) (hj : canonical j = true)
    (same : dump formatDouble i = dump formatDouble j) : i = j := by
  have := read_dump formatDouble i hi
  rw [same,read_dump formatDouble j hj] at this
  exact (Except.ok.inj this).symm
end

end TitanCore.Json
