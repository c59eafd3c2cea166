import TitanCore.State

/-! The key-value store under a node: key layout, the records it writes and reads back. A
write takes the status LevelDB returns for it; reads do not fail. -/
namespace TitanCore

/-- `none` is `Status::OK`, else the text of the failed status. -/
abbrev Status := Option Bytes

structure Storage where
  db : FiniteMap.Map Bytes Bytes

namespace Storage

def empty : Storage := ⟨∅⟩

/-- Zero-padded to eight digits; a longer number is left as it is. -/
def padIndex (index : UInt64) : Bytes :=
  let s := decimal index.toNat
  List.replicate (8 - s.length) 48 ++ s

def blockKey (index : UInt64) : Bytes := str "b:" ++ padIndex index
def hashKey (hash : Hash) : Bytes := str "h:" ++ toHex hash.val
def acctKey (addr : Address) : Bytes := str "a:" ++ toHex addr.val
def heightKey : Bytes := str "m:" ++ str "height"

def put (storage : Storage) (key value : Bytes) : Storage := ⟨storage.db.insert key value⟩

section
variable (ext : Externals)

/-- The block and its hash entry go through one atomic batch. -/
def saveBlock (storage : Storage) (block : Block) (status : Status) : Except Exn Storage :=
  let blockJson := ext.dump block.toJson
  let indexStr := decimal block.index.toNat
  match status with
  | none => .ok ((storage.put (blockKey block.index) blockJson).put (hashKey block.hash) indexStr)
  | some text => .error (.runtimeError (str "Failed to save block " ++ indexStr ++ str ": " ++ text))

def loadBlock (storage : Storage) (index : UInt64) : Except Exn (Option Block) :=
  match storage.db.lookup (blockKey index) with
  | none => .ok none
  | some value => do
    let j ← ext.parseJson value
    let block ← blockFromJson j
    return some block

/-- The hash entry leads to an index, and the index to whatever block it holds by now. -/
def loadBlockByHash (storage : Storage) (hash : Hash) : Except Exn (Option Block) :=
  match storage.db.lookup (hashKey hash) with
  | none => .ok none
  | some indexStr =>
    match stoull indexStr with
    | some index => storage.loadBlock ext index
    | none => .error ⟨if (signOf (indexStr.dropWhile isSpace)).2.takeWhile isDigit = [] then
        .invalidArgument else .outOfRange,str "stoull"⟩

def accountJson (acct : AccountState) : Json :=
  let j := Json.null
  let j := j.set (str "balance") (.unsigned acct.balance)
  j.set (str "nonce") (.unsigned acct.nonce)

def accountFromJson (j : Json) : Except Exn AccountState := do
  let balance ← (← j.index (str "balance")).getUInt64
  let nonce ← (← j.index (str "nonce")).getUInt64
  return { balance,nonce }

def saveAccountState (storage : Storage) (addr : Address) (acct : AccountState) (status : Status) :
    Except Exn Storage :=
  match status with
  | none => .ok (storage.put (acctKey addr) (ext.dump (accountJson acct)))
  | some text => .error (.runtimeError (str "Failed to save account state: " ++ text))

def loadAccountState (storage : Storage) (addr : Address) : Except Exn (Option AccountState) :=
  match storage.db.lookup (acctKey addr) with
  | none => .ok none
  | some value => do
    let j ← ext.parseJson value
    let acct ← accountFromJson j
    return some acct

/-- The entries an iterator visits after `Seek(target)`. -/
def seek (storage : Storage) (target : Bytes) : List (Bytes × Bytes) :=
  FiniteMap.seek Bytes.le storage.db target

/-- A shorter decoding leaves the address zero. -/
def addressOf (addrBytes : Bytes) : Address :=
  if long : 20 ≤ addrBytes.length then ⟨addrBytes.take 20,by simpa using long⟩
  else ⟨List.replicate 20 0,by simp⟩

/-- The loop of `loadAllAccounts`, which stops at the first key of another kind. -/
def loadAccounts : List (Bytes × Bytes) → Except Exn (List (Address × AccountState))
  | [] => .ok []
  | (key,value) :: rest =>
    if key.take 2 ≠ str "a:" then .ok []
    else do
      let addr := addressOf (fromHex (key.drop 2))
      let j ← ext.parseJson value
      let acct ← accountFromJson j
      let accounts ← loadAccounts rest
      return (addr,acct) :: accounts

def loadAllAccounts (storage : Storage) : Except Exn (List (Address × AccountState)) :=
  loadAccounts ext (storage.seek (str "a:"))

end

/-- The database is destroyed and made anew. -/
def clear (_ : Storage) : Storage := empty

def saveChainHeight (storage : Storage) (height : UInt64) (status : Status) : Except Exn Storage :=
  match status with
  | none => .ok (storage.put heightKey (decimal height.toNat))
  | some text => .error (.runtimeError (str "Failed to save chain height: " ++ text))

/-- `std::stoull` throws one exception for no digits and another for too large a number. -/
def loadChainHeight (storage : Storage) : Except Exn UInt64 :=
  match storage.db.lookup heightKey with
  | none => .ok 0
  | some value =>
    match stoull value with
    | some height => .ok height
    | none => .error ⟨if (signOf (value.dropWhile isSpace)).2.takeWhile isDigit = [] then
        .invalidArgument else .outOfRange,str "stoull"⟩

theorem digitsValue_zeros (count : Nat) (digits : Bytes) :
    digitsValue 0 (List.replicate count 48 ++ digits) = digitsValue 0 digits := by
  induction count with
  | zero => rfl
  | succ count ih => simpa [List.replicate_succ,digitsValue] using ih

theorem digitsValue_padIndex (index : UInt64) : digitsValue 0 (padIndex index) = index.toNat := by
  rw [padIndex,digitsValue_zeros,digitsValue_decimal]

theorem padIndex_injective : Function.Injective padIndex := by
  intro i j same
  have values := congrArg (digitsValue 0) same
  simp only [digitsValue_padIndex] at values
  exact UInt64.toNat.inj values

theorem blockKey_injective : Function.Injective blockKey :=
  fun _ _ same => padIndex_injective (List.append_cancel_left same)

theorem padIndex_digits (index : UInt64) : ∀ b ∈ padIndex index, isDigit b = true := by
  intro b member
  rcases List.mem_append.mp member with zero | digit
  · rw [List.eq_of_mem_replicate zero]
    rfl
  · exact decimal_digits _ b digit

/-- Below the documented capacity every index is padded to eight digits exactly. -/
theorem padIndex_length {index : UInt64} (fits : index.toNat < 10 ^ 8) :
    (padIndex index).length = 8 := by
  have short := (decimal_length_le (n := index.toNat) (k := 8) (by decide)).mpr fits
  simp only [padIndex,List.length_append,List.length_replicate]
  omega

/-- Keys of different blocks never meet, and below the capacity of the padding the store's
key order is the order of the block numbers. -/
theorem blockKey_orders_blocks :
    (∀ i j : UInt64, padIndex i = padIndex j → i = j) ∧
    (∀ i j : UInt64, blockKey i = blockKey j → i = j) ∧
    ∀ i j : UInt64, i.toNat < 10 ^ 8 → j.toNat < 10 ^ 8 →
      (i < j ↔ Bytes.less (padIndex i) (padIndex j) = true) ∧
      (i < j ↔ Bytes.less (blockKey i) (blockKey j) = true) := by
  refine ⟨fun i j same => padIndex_injective same,fun i j same => blockKey_injective same,?_⟩
  intro i j fits_i fits_j
  have order : i < j ↔ Bytes.less (padIndex i) (padIndex j) = true := by
    rw [less_iff_digitsValue (padIndex_digits i) (padIndex_digits j)
      ((padIndex_length fits_i).trans (padIndex_length fits_j).symm),digitsValue_padIndex,
      digitsValue_padIndex]
    exact UInt64.lt_iff_toNat_lt
  exact ⟨order,order.trans (less_append_left (str "b:") (padIndex i) (padIndex j)).symm⟩

theorem blockKey_orders_two_ten :
    Bytes.less (padIndex 2) (padIndex 10) = true ∧ Bytes.less (blockKey 2) (blockKey 10) = true :=
  have ordered := blockKey_orders_blocks.2.2 2 10 (by decide) (by decide)
  ⟨ordered.1.mp (by decide),ordered.2.mp (by decide)⟩

theorem acctKey_injective : Function.Injective acctKey := fun _ _ same =>
  Subtype.ext (toHex_injective (List.append_cancel_left same))

theorem hashKey_injective : Function.Injective hashKey := fun _ _ same =>
  Subtype.ext (toHex_injective (List.append_cancel_left same))

/-- Keys of different record kinds differ in their first byte. -/
theorem blockKey_head (index : UInt64) : (blockKey index).head? = some 98 := rfl
theorem hashKey_head (hash : Hash) : (hashKey hash).head? = some 104 := rfl
theorem acctKey_head (addr : Address) : (acctKey addr).head? = some 97 := rfl
theorem heightKey_head : heightKey.head? = some 109 := rfl

theorem ne_of_head {a b : Bytes} {x y : UInt8} (left : a.head? = some x) (right : b.head? = some y)
    (apart : x ≠ y) : a ≠ b := by
  rintro rfl
  rw [left,Option.some.injEq] at right
  exact apart right

theorem lookup_put_ne (storage : Storage) {key other : Bytes} (value : Bytes) (apart : other ≠ key) :
    (storage.put key value).db.lookup other = storage.db.lookup other :=
  Finmap.lookup_insert_of_ne _ apart

/-- A record of another kind does not change what a key holds. -/
theorem lookup_put_head {storage : Storage} {key other value : Bytes} {x y : UInt8}
    (left : other.head? = some x) (right : key.head? = some y) (apart : x ≠ y) :
    (storage.put key value).db.lookup other = storage.db.lookup other :=
  lookup_put_ne storage value (ne_of_head left right apart)

section
variable {ext : Externals} {storage saved : Storage}

/-- What a successful block write leaves under every block key and the height key. -/
theorem saveBlock_ok {block : Block} {status : Status}
    (done : storage.saveBlock ext block status = .ok saved) :
    saved.db.lookup (blockKey block.index) = some (ext.dump block.toJson) ∧
    (∀ index, index ≠ block.index →
      saved.db.lookup (blockKey index) = storage.db.lookup (blockKey index)) ∧
    saved.db.lookup heightKey = storage.db.lookup heightKey := by
  unfold saveBlock at done
  cases status with
  | some text => cases done
  | none =>
    cases done
    refine ⟨?_,fun index apart => ?_,?_⟩
    · rw [lookup_put_head (blockKey_head _) (hashKey_head _) (by decide)]
      exact Finmap.lookup_insert _
    · rw [lookup_put_head (blockKey_head _) (hashKey_head _) (by decide),
        lookup_put_ne _ _ (blockKey_injective.ne apart)]
    · rw [lookup_put_head heightKey_head (hashKey_head _) (by decide),
        lookup_put_head heightKey_head (blockKey_head _) (by decide)]

theorem saveChainHeight_ok {height : UInt64} {status : Status}
    (done : storage.saveChainHeight height status = .ok saved) :
    saved.db.lookup heightKey = some (decimal height.toNat) ∧
    ∀ index, saved.db.lookup (blockKey index) = storage.db.lookup (blockKey index) := by
  unfold saveChainHeight at done
  cases status with
  | some text => cases done
  | none =>
    cases done
    exact ⟨Finmap.lookup_insert _,fun index =>
      lookup_put_head (blockKey_head _) heightKey_head (by decide)⟩

theorem saveAccountState_ok {addr : Address} {acct : AccountState} {status : Status}
    (done : storage.saveAccountState ext addr acct status = .ok saved) :
    saved.db.lookup heightKey = storage.db.lookup heightKey ∧
    ∀ index, saved.db.lookup (blockKey index) = storage.db.lookup (blockKey index) := by
  unfold saveAccountState at done
  cases status with
  | some text => cases done
  | none =>
    cases done
    exact ⟨lookup_put_head heightKey_head (acctKey_head _) (by decide),fun index =>
      lookup_put_head (blockKey_head _) (acctKey_head _) (by decide)⟩

theorem saveAccountState_accounts {addr : Address} {acct : AccountState} {status : Status}
    (done : storage.saveAccountState ext addr acct status = .ok saved) :
    saved.db.lookup (acctKey addr) = some (ext.dump (accountJson acct)) ∧
    ∀ other, other ≠ addr → saved.db.lookup (acctKey other) = storage.db.lookup (acctKey other) := by
  unfold saveAccountState at done
  cases status with
  | some text => cases done
  | none =>
    cases done
    exact ⟨Finmap.lookup_insert _,fun other apart => lookup_put_ne _ _ (acctKey_injective.ne apart)⟩

theorem saveBlock_accounts {block : Block} {status : Status}
    (done : storage.saveBlock ext block status = .ok saved) (addr : Address) :
    saved.db.lookup (acctKey addr) = storage.db.lookup (acctKey addr) := by
  unfold saveBlock at done
  cases status with
  | some text => cases done
  | none =>
    cases done
    rw [lookup_put_head (acctKey_head _) (hashKey_head _) (by decide),
      lookup_put_head (acctKey_head _) (blockKey_head _) (by decide)]

theorem saveChainHeight_accounts {height : UInt64} {status : Status}
    (done : storage.saveChainHeight height status = .ok saved) (addr : Address) :
    saved.db.lookup (acctKey addr) = storage.db.lookup (acctKey addr) := by
  unfold saveChainHeight at done
  cases status with
  | some text => cases done
  | none =>
    cases done
    exact lookup_put_head (acctKey_head _) heightKey_head (by decide)

def Tidy (ext : Externals) (storage : Storage) : Prop :=
  ∀ addr text, storage.db.lookup (acctKey addr) = some text → ∃ acct, text = ext.dump (accountJson acct)

theorem Tidy.frame (tidy : storage.Tidy ext)
    (same : ∀ addr, saved.db.lookup (acctKey addr) = storage.db.lookup (acctKey addr)) : saved.Tidy ext := by
  intro addr text record
  rw [same] at record
  exact tidy addr text record

theorem Tidy.saveAccountState {addr : Address} {acct : AccountState} {status : Status} (tidy : storage.Tidy ext)
    (done : storage.saveAccountState ext addr acct status = .ok saved) : saved.Tidy ext := by
  intro other text record
  by_cases same : other = addr
  · rw [same,(saveAccountState_accounts done).1] at record
    exact ⟨acct,(Option.some.inj record).symm⟩
  · rw [(saveAccountState_accounts done).2 other same] at record
    exact tidy other text record

def Files (ext : Externals) (storage : Storage) (accounts : Accounts) (addr : Address) : Prop :=
  ∀ acct, accounts.lookup addr = some acct →
    storage.db.lookup (acctKey addr) = some (ext.dump (accountJson acct))

theorem Files.of_save {accounts : Accounts} {addr : Address} {acct : AccountState} {status : Status}
    (account : accounts.lookup addr = some acct)
    (done : storage.saveAccountState ext addr acct status = .ok saved) : saved.Files ext accounts addr := by
  intro found held
  obtain rfl := Option.some.inj (account.symm.trans held)
  exact (saveAccountState_accounts done).1

/-- Filing an account as it is does not hurt the other records. -/
theorem Files.saveAccountState {accounts : Accounts} {addr other : Address} {acct : AccountState}
    {status : Status} (files : storage.Files ext accounts other) (account : accounts.lookup addr = some acct)
    (done : storage.saveAccountState ext addr acct status = .ok saved) : saved.Files ext accounts other := by
  by_cases same : other = addr
  · rw [same]
    exact .of_save account done
  · intro found held
    rw [(saveAccountState_accounts done).2 other same]
    exact files found held

theorem loadBlock_record (parses : ext.ParseUndoesDump) {index : UInt64} {block : Block}
    (record : storage.db.lookup (blockKey index) = some (ext.dump block.toJson)) :
    storage.loadBlock ext index = .ok (some block) := by
  simp only [loadBlock,record,ext.parseJson_dump parses block.canonical_toJson,ok_bind,
    blockFromJson_toJson]
  rfl

theorem loadBlock_absent {index : UInt64} (absent : storage.db.lookup (blockKey index) = none) :
    storage.loadBlock ext index = .ok none := by
  simp only [loadBlock,absent]

theorem loadChainHeight_record {height : UInt64}
    (record : storage.db.lookup heightKey = some (decimal height.toNat)) :
    storage.loadChainHeight = .ok height := by
  simp only [loadChainHeight,record,stoull_decimal]

theorem loadChainHeight_absent (absent : storage.db.lookup heightKey = none) :
    storage.loadChainHeight = .ok 0 := by
  simp only [loadChainHeight,absent]

end
end Storage
end TitanCore
