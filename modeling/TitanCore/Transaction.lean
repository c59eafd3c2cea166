import TitanCore.Keys

/-! Transactions: encoding, hashing, signing and verification. -/
namespace TitanCore

def zeroHash : Hash := ⟨List.replicate 32 0,by simp⟩

structure Transaction where
  sender : Address
  recipient : Address
  amount : UInt64
  nonce : UInt64
  timestamp : UInt64
  senderPublicKey : PublicKey
  signature : Signature
  hash : Hash
  deriving DecidableEq

/-- The fields the hash and the signature cover. -/
def signableJson (tx : Transaction) : Json :=
  let j := Json.null
  let j := j.set (str "sender") (.string (toHex tx.sender.val))
  let j := j.set (str "recipient") (.string (toHex tx.recipient.val))
  let j := j.set (str "amount") (.unsigned tx.amount)
  let j := j.set (str "nonce") (.unsigned tx.nonce)
  let j := j.set (str "timestamp") (.unsigned tx.timestamp)
  j.set (str "senderPublicKey") (.string (toHex tx.senderPublicKey.val))

def Transaction.toJson (tx : Transaction) : Json :=
  let j := signableJson tx
  let j := j.set (str "signature") (.string (toHex tx.signature))
  j.set (str "hash") (.string (toHex tx.hash.val))

def transactionFromJson (j : Json) : Except Exn Transaction := do
  let sender ← hexToArray 20 (← (← j.at? (str "sender")).getString)
  let recipient ← hexToArray 20 (← (← j.at? (str "recipient")).getString)
  let senderPublicKey ← hexToArray 33 (← (← j.at? (str "senderPublicKey")).getString)
  let amount ← (← j.at? (str "amount")).getUInt64
  let nonce ← (← j.at? (str "nonce")).getUInt64
  let timestamp ← (← j.at? (str "timestamp")).getUInt64
  let signature := fromHex (← (← j.at? (str "signature")).getString)
  let hash ← toArray 32 (fromHex (← (← j.at? (str "hash")).getString))
    (.runtimeError (str "Invalid hash length in JSON"))
  return { sender,recipient,amount,nonce,timestamp,senderPublicKey,signature,hash }

section
variable (ext : Externals)

def transactionPreimage (tx : Transaction) : Bytes := ext.dump (signableJson tx)

def computeTransactionHash (tx : Transaction) : Hash := ext.sha256 (transactionPreimage ext tx)

def signTransaction (tx : Transaction) (privateKey : PrivateKey) : Except Exn Transaction := do
  let tx := { tx with hash := computeTransactionHash ext tx }
  let signature ← sign ext tx.hash privateKey
  return { tx with signature }

/-- `now` is the system clock, in seconds. -/
def createTransaction (senderKeyPair : KeyPair) (recipient : Address) (amount nonce now : UInt64) :
    Except Exn Transaction :=
  signTransaction ext
    { sender := deriveAddress ext senderKeyPair.publicKey
      recipient,amount,nonce
      timestamp := now
      senderPublicKey := senderKeyPair.publicKey
      signature := []
      hash := zeroHash } senderKeyPair.privateKey

def verifyTransaction (tx : Transaction) : Bool :=
  if deriveAddress ext tx.senderPublicKey ≠ tx.sender then false
  else if computeTransactionHash ext tx ≠ tx.hash then false
  else verify ext tx.hash tx.signature tx.senderPublicKey

end

theorem signableJson_fields (tx : Transaction) : signableJson tx = .object [
    (str "amount",.unsigned tx.amount),
    (str "nonce",.unsigned tx.nonce),
    (str "recipient",.string (toHex tx.recipient.val)),
    (str "sender",.string (toHex tx.sender.val)),
    (str "senderPublicKey",.string (toHex tx.senderPublicKey.val)),
    (str "timestamp",.unsigned tx.timestamp)] := rfl

theorem Transaction.toJson_fields (tx : Transaction) : tx.toJson = .object [
    (str "amount",.unsigned tx.amount),
    (str "hash",.string (toHex tx.hash.val)),
    (str "nonce",.unsigned tx.nonce),
    (str "recipient",.string (toHex tx.recipient.val)),
    (str "sender",.string (toHex tx.sender.val)),
    (str "senderPublicKey",.string (toHex tx.senderPublicKey.val)),
    (str "signature",.string (toHex tx.signature)),
    (str "timestamp",.unsigned tx.timestamp)] := rfl

theorem toArray_self {n : Nat} (data : ByteArr n) (failure : Exn) : toArray n data.val failure = .ok data := by
  simp [toArray,data.2]

@[simp] theorem transactionFromJson_toJson (tx : Transaction) :
    transactionFromJson tx.toJson = .ok tx := by
  have sender : tx.toJson.at? (str "sender") = .ok (.string (toHex tx.sender.val)) := rfl
  have recipient : tx.toJson.at? (str "recipient") = .ok (.string (toHex tx.recipient.val)) := rfl
  have key : tx.toJson.at? (str "senderPublicKey") = .ok (.string (toHex tx.senderPublicKey.val)) := rfl
  have amount : tx.toJson.at? (str "amount") = .ok (.unsigned tx.amount) := rfl
  have nonce : tx.toJson.at? (str "nonce") = .ok (.unsigned tx.nonce) := rfl
  have timestamp : tx.toJson.at? (str "timestamp") = .ok (.unsigned tx.timestamp) := rfl
  have signature : tx.toJson.at? (str "signature") = .ok (.string (toHex tx.signature)) := rfl
  have hash : tx.toJson.at? (str "hash") = .ok (.string (toHex tx.hash.val)) := rfl
  simp only [transactionFromJson,sender,recipient,key,amount,nonce,timestamp,signature,hash,ok_bind,
    Json.getString,Json.getUInt64,hexToArray_toHex,fromHex_toHex,toArray_self]
  rfl

theorem canonical_signableJson (tx : Transaction) : (signableJson tx).canonical = true := by
  rw [signableJson_fields]
  simp only [Json.canonical,Json.canonicalFields,Json.keysSorted,utf8Valid_toHex,Bool.and_true]
  decide +kernel

theorem canonical_toJson (tx : Transaction) : tx.toJson.canonical = true := by
  rw [Transaction.toJson_fields]
  simp only [Json.canonical,Json.canonicalFields,Json.keysSorted,utf8Valid_toHex,Bool.and_true]
  decide +kernel

/-- Every signable field can be read off the signed text. -/
theorem transactionPreimage_injective (ext : Externals) {a b : Transaction}
    (same : transactionPreimage ext a = transactionPreimage ext b) :
    a.sender = b.sender ∧ a.recipient = b.recipient ∧ a.amount = b.amount ∧ a.nonce = b.nonce ∧
    a.timestamp = b.timestamp ∧ a.senderPublicKey = b.senderPublicKey := by
  have values := ext.dump_injective (canonical_signableJson a) (canonical_signableJson b) same
  rw [signableJson_fields,signableJson_fields] at values
  simp only [Json.object.injEq,List.cons.injEq,Prod.mk.injEq,Json.unsigned.injEq,
    Json.string.injEq,true_and,and_true] at values
  obtain ⟨amount,nonce,recipient,sender,key,timestamp⟩ := values
  exact ⟨Subtype.ext (toHex_injective sender),Subtype.ext (toHex_injective recipient),amount,nonce,
    timestamp,Subtype.ext (toHex_injective key)⟩

theorem verifyTransaction_iff (ext : Externals) (tx : Transaction) :
    verifyTransaction ext tx = true ↔ deriveAddress ext tx.senderPublicKey = tx.sender ∧
      computeTransactionHash ext tx = tx.hash ∧
      verify ext tx.hash tx.signature tx.senderPublicKey = true := by
  unfold verifyTransaction
  split_ifs with sender hash <;> simp_all

end TitanCore
