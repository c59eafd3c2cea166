import TitanCore.JsonReader

/-! `dump` with an indent: the text of the compact dump with blanks between its tokens, and none
inside of one. -/
namespace TitanCore.Json

def blanks (n : Nat) : Bytes := List.replicate n 32

section
variable (formatDouble : Double → Bytes) (step : Nat)

mutual
/-- `j.dump(step)` inside of what is already indented by `indent`. -/
def dumpPretty (indent : Nat) : Json → Bytes
  | .array (j :: rest) =>
    [91,10] ++ (blanks (indent + step) ++ (dumpPretty (indent + step) j ++ prettyRest indent rest))
  | .object ((k,v) :: rest) =>
    [123,10] ++ (blanks (indent + step) ++
      (quote k ++ ([58,32] ++ (dumpPretty (indent + step) v ++ prettyFields indent rest))))
  | j => dump formatDouble j

def prettyRest (indent : Nat) : List Json → Bytes
  | [] => [10] ++ (blanks indent ++ [93])
  | j :: rest => [44,10] ++ (blanks (indent + step) ++ (dumpPretty (indent + step) j ++ prettyRest indent rest))

def prettyFields (indent : Nat) : List (Bytes × Json) → Bytes
  | [] => [10] ++ (blanks indent ++ [125])
  | (k,v) :: rest =>
    [44,10] ++ (blanks (indent + step) ++
      (quote k ++ ([58,32] ++ (dumpPretty (indent + step) v ++ prettyFields indent rest))))
end

end

/-- Outside of strings, within one, and after a backslash in one. -/
inductive Place where
  | outside
  | inside
  | escaped

def isBlank (b : UInt8) : Bool := b = 32 || b = 10 || b = 13 || b = 9

def strip : Place → Bytes → Bytes
  | _,[] => []
  | .outside,b :: rest =>
    if isBlank b then strip .outside rest
    else if b = 34 then b :: strip .inside rest
    else b :: strip .outside rest
  | .inside,b :: rest =>
    if b = 34 then b :: strip .outside rest
    else if b = 92 then b :: strip .escaped rest
    else b :: strip .inside rest
  | .escaped,b :: rest => b :: strip .inside rest

def Solid (text : Bytes) : Prop := ∀ b ∈ text, isBlank b = false ∧ b ≠ 34

instance (text : Bytes) : Decidable (Solid text) := List.decidableBAll (fun b => isBlank b = false ∧ b ≠ 34) text

section strip
variable {rest : Bytes}

theorem strip_blanks (n : Nat) : strip .outside (blanks n ++ rest) = strip .outside rest := by
  induction n with
  | zero => rfl
  | succ n ih => exact ih

theorem strip_solid {text : Bytes} (solid : Solid text) :
    strip .outside (text ++ rest) = text ++ strip .outside rest := by
  induction text with
  | nil => rfl
  | cons b text ih =>
    obtain ⟨full,other⟩ := solid b List.mem_cons_self
    have later := ih fun c member => solid c (List.mem_cons_of_mem _ member)
    rw [List.cons_append,strip,if_neg (by simp [full]),if_neg other,later]
    rfl

theorem strip_plain {text : Bytes} (plain : ∀ b ∈ text, b ≠ 34 ∧ b ≠ 92) :
    strip .inside (text ++ rest) = text ++ strip .inside rest := by
  induction text with
  | nil => rfl
  | cons b text ih =>
    obtain ⟨quote,slash⟩ := plain b List.mem_cons_self
    have later := ih fun c member => plain c (List.mem_cons_of_mem _ member)
    rw [List.cons_append,strip,if_neg quote,if_neg slash,later]
    rfl

theorem strip_escapeByte (b : UInt8) :
    strip .inside (escapeByte b ++ rest) = escapeByte b ++ strip .inside rest := by
  have digit : ∀ n < 16, hexDigit n ≠ 34 ∧ hexDigit n ≠ 92 := by decide
  unfold escapeByte
  split_ifs with quote slash _ _ _ _ _ small
  case neg => exact strip_plain fun c member => by rw [List.mem_singleton.mp member]; exact ⟨quote,slash⟩
  all_goals simp only [List.cons_append,List.nil_append,strip]
  all_goals try rfl
  -- the four digits of a control character
  let code := [48,48,hexDigit (b.toNat / 16),hexDigit (b.toNat % 16)]
  have tail : strip .inside (code ++ rest) = code ++ strip .inside rest :=
    strip_plain (by simpa [code] using ⟨digit _ (by omega),digit _ (by omega)⟩)
  simpa [strip,code] using tail

theorem strip_quote (s : Bytes) : strip .outside (quote s ++ rest) = quote s ++ strip .outside rest := by
  have content : ∀ tail, strip .inside (s.flatMap escapeByte ++ tail) =
      s.flatMap escapeByte ++ strip .inside tail := by
    intro tail
    induction s with
    | nil => rfl
    | cons b s ih => rw [List.flatMap_cons,List.append_assoc,strip_escapeByte,ih,List.append_assoc]
  have closing : strip .inside (34 :: rest) = 34 :: strip .outside rest := rfl
  have opening : strip .outside (quote s ++ rest) = 34 :: strip .inside (s.flatMap escapeByte ++ 34 :: rest) := by
    simp [quote,strip,isBlank]
  rw [opening,content,closing]
  simp [quote]

end strip

theorem solid_decimal (n : Nat) : Solid (decimal n) := by
  intro b member
  have digit := decimal_digits n b member
  simp only [isDigit,Bool.and_eq_true,decide_eq_true_eq] at digit
  have apart : ∀ c : UInt8, c.toNat < 48 → b ≠ c := by
    rintro c small rfl
    omega
  exact ⟨by simp [isBlank,apart 32 (by decide),apart 10 (by decide),apart 13 (by decide),apart 9 (by decide)],
    apart 34 (by decide)⟩

theorem solid_integer (n : Int64) : Solid (if n.toInt < 0 then 45 :: decimal n.toInt.natAbs else
    decimal n.toInt.natAbs) := by
  split
  · intro b member
    rcases List.mem_cons.mp member with rfl | member
    · decide
    · exact solid_decimal _ b member
  · exact solid_decimal _

section pretty
variable {formatDouble : Double → Bytes} (step : Nat)

mutual
/-- Without its blanks the indented text is the compact one, whatever follows. -/
theorem strip_pretty (numbers : ∀ x, Solid (formatDouble x)) (j : Json) (indent : Nat) (rest : Bytes) :
    strip .outside (dumpPretty formatDouble step indent j ++ rest) = dump formatDouble j ++ strip .outside rest := by
  match j with
  | .null => exact strip_solid (show Solid (str "null") by decide)
  | .boolean true => exact strip_solid (show Solid (str "true") by decide)
  | .boolean false => exact strip_solid (show Solid (str "false") by decide)
  | .unsigned n => exact strip_solid (solid_decimal _)
  | .integer n => exact strip_solid (solid_integer n)
  | .float x => exact strip_solid (numbers x)
  | .string s => exact strip_quote s
  | .array [] => rfl
  | .object [] => rfl
  | .array (j :: elems) =>
    have first := strip_pretty numbers j (indent + step) (prettyRest formatDouble step indent elems ++ rest)
    have others := strip_prettyRest numbers elems indent rest
    simp only [dumpPretty,List.cons_append,List.nil_append,List.append_assoc,dump]
    change 91 :: strip .outside (blanks _ ++ _) = _
    rw [strip_blanks,first,others]
  | .object ((k,v) :: fields) =>
    have value := strip_pretty numbers v (indent + step) (prettyFields formatDouble step indent fields ++ rest)
    have others := strip_prettyFields numbers fields indent rest
    simp only [dumpPretty,List.cons_append,List.nil_append,List.append_assoc,dump]
    change 123 :: strip .outside (blanks _ ++ _) = _
    rw [strip_blanks,strip_quote]
    change 123 :: (quote k ++ 58 :: strip .outside (dumpPretty _ _ _ v ++ _)) = _
    rw [value,others]

theorem strip_prettyRest (numbers : ∀ x, Solid (formatDouble x)) (elems : List Json) (indent : Nat) (rest : Bytes) :
    strip .outside (prettyRest formatDouble step indent elems ++ rest) =
      dumpRest formatDouble elems ++ strip .outside rest := by
  match elems with
  | [] =>
    simp only [prettyRest,List.cons_append,List.nil_append,List.append_assoc]
    change strip .outside (blanks _ ++ _) = _
    rw [strip_blanks]
    rfl
  | j :: elems =>
    have first := strip_pretty numbers j (indent + step) (prettyRest formatDouble step indent elems ++ rest)
    have others := strip_prettyRest numbers elems indent rest
    simp only [prettyRest,List.cons_append,List.nil_append,List.append_assoc,dumpRest]
    change 44 :: strip .outside (blanks _ ++ _) = _
    rw [strip_blanks,first,others]

theorem strip_prettyFields (numbers : ∀ x, Solid (formatDouble x)) (fields : List (Bytes × Json)) (indent : Nat) (rest : Bytes) :
    strip .outside (prettyFields formatDouble step indent fields ++ rest) =
      dumpFields formatDouble fields ++ strip .outside rest := by
  match fields with
  | [] =>
    simp only [prettyFields,List.cons_append,List.nil_append,List.append_assoc]
    change strip .outside (blanks _ ++ _) = _
    rw [strip_blanks]
    rfl
  | (k,v) :: fields =>
    have value := strip_pretty numbers v (indent + step) (prettyFields formatDouble step indent fields ++ rest)
    have others := strip_prettyFields numbers fields indent rest
    simp only [prettyFields,List.cons_append,List.nil_append,List.append_assoc,dumpFields]
    change 44 :: strip .outside (blanks _ ++ _) = _
    rw [strip_blanks,strip_quote]
    change 44 :: (quote k ++ 58 :: strip .outside (dumpPretty _ _ _ v ++ _)) = _
    rw [value,others]
end

end pretty

end TitanCore.Json
