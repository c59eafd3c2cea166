import TitanCore.Transaction

/-! Blocks: the hashed header, signing, verification and the wire encoding. -/
namespace TitanCore

structure Block where
  index : UInt64
  timestamp : UInt64
  previousHash : Hash
  validator : Address
  validatorPublicKey : PublicKey
  transactions : List Transaction
  signature : Signature
  hash : Hash
  deriving DecidableEq

def rootPreimage (transactions : List Transaction) : Bytes :=
  transactions.flatMap fun tx => tx.hash.val

section
variable (ext : Externals)

def computeTransactionRootHash (transactions : List Transaction) : Hash :=
  ext.sha256 (rootPreimage transactions)

/-- Everything the block hash covers; the transactions enter through their root. -/
def headerJson (block : Block) : Json :=
  let j := Json.null
  let j := j.set (str "index") (.unsigned block.index)
  let j := j.set (str "timestamp") (.unsigned block.timestamp)
  let j := j.set (str "previousHash") (.string (toHex block.previousHash.val))
  let j := j.set (str "validator") (.string (toHex block.validator.val))
  let j := j.set (str "validatorPublicKey") (.string (toHex block.validatorPublicKey.val))
  let txRoot := computeTransactionRootHash ext block.transactions
  j.set (str "transactionRootHash") (.string (toHex txRoot.val))

def headerPreimage (block : Block) : Bytes := ext.dump (headerJson ext block)

def computeBlockHash (block : Block) : Hash := ext.sha256 (headerPreimage ext block)

def signBlock (block : Block) (validatorPrivateKey : PrivateKey) : Except Exn Block := do
  let block := { block with hash := computeBlockHash ext block }
  let signature ← sign ext block.hash validatorPrivateKey
  return { block with signature }

def createGenesisBlock (validatorKeyPair : KeyPair) : Except Exn Block :=
  signBlock ext
    { index := 0
      timestamp := 0
      previousHash := zeroHash
      validator := deriveAddress ext validatorKeyPair.publicKey
      validatorPublicKey := validatorKeyPair.publicKey
      transactions := []
      signature := []
      hash := zeroHash } validatorKeyPair.privateKey

/-- `now` is the system clock, in seconds. -/
def createBlock (validatorKeyPair : KeyPair) (previousBlock : Block)
    (transactions : List Transaction) (now : UInt64) : Except Exn Block :=
  signBlock ext
    { index := previousBlock.index + 1
      timestamp := now
      previousHash := previousBlock.hash
      validator := deriveAddress ext validatorKeyPair.publicKey
      validatorPublicKey := validatorKeyPair.publicKey
      transactions
      signature := []
      hash := zeroHash } validatorKeyPair.privateKey

def verifyBlock (block : Block) : Bool :=
  if deriveAddress ext block.validatorPublicKey ≠ block.validator then false
  else if computeBlockHash ext block ≠ block.hash then false
  else if verify ext block.hash block.signature block.validatorPublicKey = false then false
  else block.transactions.all (verifyTransaction ext)

end

def Block.toJson (block : Block) : Json :=
  let j := Json.null
  let j := j.set (str "index") (.unsigned block.index)
  let j := j.set (str "timestamp") (.unsigned block.timestamp)
  let j := j.set (str "previousHash") (.string (toHex block.previousHash.val))
  let j := j.set (str "validator") (.string (toHex block.validator.val))
  let j := j.set (str "validatorPublicKey") (.string (toHex block.validatorPublicKey.val))
  let j := j.set (str "signature") (.string (toHex block.signature))
  let j := j.set (str "hash") (.string (toHex block.hash.val))
  j.set (str "transactions") (.array (block.transactions.map Transaction.toJson))

/-- The loop over `j.at("transactions")`, which stops at the first bad element. -/
def transactionsFromJson : List Json → Except Exn (List Transaction)
  | [] => .ok []
  | txJson :: rest => do
    let tx ← transactionFromJson txJson
    let txs ← transactionsFromJson rest
    return tx :: txs

def blockFromJson (j : Json) : Except Exn Block := do
  let index ← (← j.at? (str "index")).getUInt64
  let timestamp ← (← j.at? (str "timestamp")).getUInt64
  let previousHash ← hexToArray 32 (← (← j.at? (str "previousHash")).getString)
  let validator ← hexToArray 20 (← (← j.at? (str "validator")).getString)
  let validatorPublicKey ← hexToArray 33 (← (← j.at? (str "validatorPublicKey")).getString)
  let signature := fromHex (← (← j.at? (str "signature")).getString)
  let hash ← toArray 32 (fromHex (← (← j.at? (str "hash")).getString))
    (.runtimeError (str "Invalid block hash length in JSON"))
  let transactions ← transactionsFromJson (← j.at? (str "transactions")).elements
  return { index,timestamp,previousHash,validator,validatorPublicKey,transactions,signature,hash }

theorem headerJson_fields (ext : Externals) (block : Block) : headerJson ext block = .object [
    (str "index",.unsigned block.index),
    (str "previousHash",.string (toHex block.previousHash.val)),
    (str "timestamp",.unsigned block.timestamp),
    (str "transactionRootHash",
      .string (toHex (computeTransactionRootHash ext block.transactions).val)),
    (str "validator",.string (toHex block.validator.val)),
    (str "validatorPublicKey",.string (toHex block.validatorPublicKey.val))] := rfl

theorem Block.toJson_fields (block : Block) : block.toJson = .object [
    (str "hash",.string (toHex block.hash.val)),
    (str "index",.unsigned block.index),
    (str "previousHash",.string (toHex block.previousHash.val)),
    (str "signature",.string (toHex block.signature)),
    (str "timestamp",.unsigned block.timestamp),
    (str "transactions",.array (block.transactions.map Transaction.toJson)),
    (str "validator",.string (toHex block.validator.val)),
    (str "validatorPublicKey",.string (toHex block.validatorPublicKey.val))] := rfl

@[simp] theorem transactionsFromJson_map (transactions : List Transaction) :
    transactionsFromJson (transactions.map Transaction.toJson) = .ok transactions := by
  induction transactions with
  | nil => rfl
  | cons tx rest ih =>
    simp only [List.map_cons,transactionsFromJson,transactionFromJson_toJson,ih,ok_bind]
    rfl

@[simp] theorem blockFromJson_toJson (block : Block) : blockFromJson block.toJson = .ok block := by
  have index : block.toJson.at? (str "index") = .ok (.unsigned block.index) := rfl
  have timestamp : block.toJson.at? (str "timestamp") = .ok (.unsigned block.timestamp) := rfl
  have previous : block.toJson.at? (str "previousHash") =
    .ok (.string (toHex block.previousHash.val)) := rfl
  have validator : block.toJson.at? (str "validator") =
    .ok (.string (toHex block.validator.val)) := rfl
  have key : block.toJson.at? (str "validatorPublicKey") =
    .ok (.string (toHex block.validatorPublicKey.val)) := rfl
  have signature : block.toJson.at? (str "signature") = .ok (.string (toHex block.signature)) := rfl
  have hash : block.toJson.at? (str "hash") = .ok (.string (toHex block.hash.val)) := rfl
  have transactions : block.toJson.at? (str "transactions") =
    .ok (.array (block.transactions.map Transaction.toJson)) := rfl
  simp only [blockFromJson,index,timestamp,previous,validator,key,signature,hash,transactions,
    ok_bind,Json.getString,Json.getUInt64,Json.elements,hexToArray_toHex,fromHex_toHex,
    toArray_self,transactionsFromJson_map]
  rfl

theorem canonical_headerJson (ext : Externals) (block : Block) :
    (headerJson ext block).canonical = true := by
  rw [headerJson_fields]
  simp only [Json.canonical,Json.canonicalFields,Json.keysSorted,utf8Valid_toHex,Bool.and_true]
  decide +kernel

theorem Block.canonical_toJson (block : Block) : block.toJson.canonical = true := by
  have transactions : Json.canonicalElems (block.transactions.map Transaction.toJson) = true := by
    rw [Json.canonicalElems_iff]
    intro j member
    obtain ⟨tx,-,rfl⟩ := List.mem_map.mp member
    exact TitanCore.canonical_toJson tx
  rw [Block.toJson_fields]
  simp only [Json.canonical,Json.canonicalFields,Json.keysSorted,utf8Valid_toHex,transactions,
    Bool.and_true]
  decide +kernel

/-- Every header field can be read off the hashed text. -/
theorem headerPreimage_injective (ext : Externals) {a b : Block}
    (same : headerPreimage ext a = headerPreimage ext b) :
    a.index = b.index ∧ a.timestamp = b.timestamp ∧ a.previousHash = b.previousHash ∧
    a.validator = b.validator ∧ a.validatorPublicKey = b.validatorPublicKey ∧
    computeTransactionRootHash ext a.transactions = computeTransactionRootHash ext b.transactions := by
  have values := ext.dump_injective (canonical_headerJson ext a) (canonical_headerJson ext b) same
  rw [headerJson_fields,headerJson_fields] at values
  simp only [Json.object.injEq,List.cons.injEq,Prod.mk.injEq,Json.unsigned.injEq,
    Json.string.injEq,true_and,and_true] at values
  obtain ⟨index,previous,timestamp,root,validator,key⟩ := values
  exact ⟨index,timestamp,Subtype.ext (toHex_injective previous),
    Subtype.ext (toHex_injective validator),Subtype.ext (toHex_injective key),
    Subtype.ext (toHex_injective root)⟩

/-- Hashes have one length, so their concatenation splits in one way only. -/
theorem rootPreimage_injective {a b : List Transaction} (same : rootPreimage a = rootPreimage b) :
    a.map Transaction.hash = b.map Transaction.hash := by
  induction a generalizing b with
  | nil =>
    cases b with
    | nil => rfl
    | cons tx rest =>
      have lengths := congrArg List.length same
      simp only [rootPreimage,List.flatMap_nil,List.flatMap_cons,List.length_append,tx.hash.2,
        List.length_nil] at lengths
      omega
  | cons s a ih =>
    cases b with
    | nil =>
      have lengths := congrArg List.length same
      simp only [rootPreimage,List.flatMap_nil,List.flatMap_cons,List.length_append,s.hash.2,
        List.length_nil] at lengths
      omega
    | cons t b =>
      simp only [rootPreimage,List.flatMap_cons] at same
      obtain ⟨head,tail⟩ := List.append_inj same (by rw [s.hash.2,t.hash.2])
      simp only [List.map_cons,List.cons.injEq]
      exact ⟨Subtype.ext head,ih tail⟩

theorem verifyBlock_iff (ext : Externals) (block : Block) :
    verifyBlock ext block = true ↔ deriveAddress ext block.validatorPublicKey = block.validator ∧
      computeBlockHash ext block = block.hash ∧
      verify ext block.hash block.signature block.validatorPublicKey = true ∧
      ∀ tx ∈ block.transactions, verifyTransaction ext tx = true := by
  unfold verifyBlock
  split_ifs with validator hash signature <;> simp_all

/-- What signing does: the hash is recomputed, and the key signs that hash. -/
theorem signBlock_ok (ext : Externals) {block signed : Block} {key : PrivateKey}
    (done : signBlock ext block key = .ok signed) :
    ∃ signature, sign ext (computeBlockHash ext block) key = .ok signature ∧
      signed = { block with hash := computeBlockHash ext block, signature } := by
  unfold signBlock at done
  cases made : sign ext (computeBlockHash ext block) key with
  | error e => simp [made] at done
  | ok signature =>
    simp only [made,ok_bind] at done
    cases done
    exact ⟨signature,rfl,rfl⟩

theorem signBlock_wellFormed (ext : Externals) {keys : KeyPair} (wellFormed : keys.WellFormed ext)
    (block : Block) : ∃ signature,
      signBlock ext block keys.privateKey =
        .ok { block with hash := computeBlockHash ext block, signature } ∧
      verify ext (computeBlockHash ext block) signature keys.publicKey = true := by
  obtain ⟨signature,signed,accepted⟩ := wellFormed.accepts (computeBlockHash ext block)
  refine ⟨signature,?_,accepted⟩
  simp only [signBlock,signed,ok_bind]
  rfl

end TitanCore
