import Mathlib.Algebra.Order.BigOperators.Group.List
import Mathlib.Data.Nat.Cast.Basic
import TitanCore.Block
import TitanCore.Message

/-! How long the texts of transactions, blocks and messages are. Only numbers, signatures and
lists vary; everything else has a fixed length. -/
namespace TitanCore

theorem escapeByte_hexDigit {n : Nat} (small : n < 16) :
    Json.escapeByte (hexDigit n) = [hexDigit n] := by
  have table : ∀ m : Fin 16, Json.escapeByte (hexDigit m.val) = [hexDigit m.val] := by decide
  exact table ⟨n,small⟩

theorem escape_toHex (data : Bytes) : (toHex data).flatMap Json.escapeByte = toHex data := by
  induction data with
  | nil => rfl
  | cons b data ih =>
    have small := b.toNat_lt
    simp only [toHex_cons,List.flatMap_cons,ih,escapeByte_hexDigit (by omega : b.toNat / 16 < 16),
      escapeByte_hexDigit (by omega : b.toNat % 16 < 16),List.cons_append,List.nil_append]

/-- A hexadecimal string needs no escapes. -/
@[simp] theorem quote_toHex_length (data : Bytes) :
    (Json.quote (toHex data)).length = 2 * data.length + 2 := by
  simp only [Json.quote,escape_toHex,List.length_cons,List.length_append,toHex_length,
    List.length_nil]

theorem decimal_length (n : UInt64) :
    1 ≤ (decimal n.toNat).length ∧ (decimal n.toNat).length ≤ 20 :=
  ⟨decimal_length_pos _,(decimal_length_le (by decide)).mpr (lt_trans n.toNat_lt (by decide))⟩

section
variable (ext : Externals)

/-- What the elements of an array take, with a comma or a bracket after each. -/
def elementsSize (elements : List Json) : Nat :=
  (elements.map fun element => (ext.dump element).length + 1).sum

theorem dump_array_length (elements : List Json) :
    (ext.dump (.array elements)).length = max 1 (elementsSize ext elements) + 1 := by
  cases elements with
  | nil => rfl
  | cons j rest =>
    simp only [Externals.dump,Json.dump,List.length_cons,List.length_append,Json.dumpRest_length,
      elementsSize,List.map_cons,List.sum_cons]
    omega

theorem elementsSize_le {elements : List Json} {size : Nat}
    (each : ∀ element ∈ elements, (ext.dump element).length + 1 ≤ size) :
    elementsSize ext elements ≤ elements.length * size := by
  have bound := List.sum_le_card_nsmul (elements.map fun element => (ext.dump element).length + 1)
    size fun n member => by
      obtain ⟨element,inside,rfl⟩ := List.mem_map.mp member
      exact each element inside
  rwa [List.length_map,nsmul_eq_mul] at bound

theorem le_elementsSize {elements : List Json} {size : Nat}
    (each : ∀ element ∈ elements, size ≤ (ext.dump element).length + 1) :
    elements.length * size ≤ elementsSize ext elements := by
  have bound := List.card_nsmul_le_sum (elements.map fun element => (ext.dump element).length + 1)
    size fun n member => by
      obtain ⟨element,inside,rfl⟩ := List.mem_map.mp member
      exact each element inside
  rwa [List.length_map,nsmul_eq_mul] at bound

theorem key_lengths : (Json.quote (str "amount")).length = 8 ∧ (Json.quote (str "hash")).length = 6 ∧
    (Json.quote (str "nonce")).length = 7 ∧ (Json.quote (str "recipient")).length = 11 ∧
    (Json.quote (str "sender")).length = 8 ∧ (Json.quote (str "senderPublicKey")).length = 17 ∧
    (Json.quote (str "signature")).length = 11 ∧ (Json.quote (str "timestamp")).length = 11 ∧
    (Json.quote (str "index")).length = 7 ∧ (Json.quote (str "previousHash")).length = 14 ∧
    (Json.quote (str "transactions")).length = 14 ∧ (Json.quote (str "validator")).length = 11 ∧
    (Json.quote (str "validatorPublicKey")).length = 20 ∧ (Json.quote (str "from")).length = 6 ∧
    (Json.quote (str "blocks")).length = 8 ∧ (Json.quote (str "payload")).length = 9 ∧
    (Json.quote (str "type")).length = 6 := by
  decide +kernel

theorem transaction_length (tx : Transaction) : (ext.dump tx.toJson).length =
    316 + (decimal tx.amount.toNat).length + (decimal tx.nonce.toNat).length +
      (decimal tx.timestamp.toNat).length + 2 * tx.signature.length := by
  rw [Transaction.toJson_fields,Externals.dump]
  simp only [Json.dump,Json.dumpFields,List.length_cons,List.length_append,
    quote_toHex_length,tx.sender.2,tx.recipient.2,tx.senderPublicKey.2,tx.hash.2]
  have keys := key_lengths
  simp only [List.length_nil]
  omega

theorem block_length (block : Block) : (ext.dump block.toJson).length =
    355 + (decimal block.index.toNat).length + (decimal block.timestamp.toNat).length +
      2 * block.signature.length +
      (ext.dump (.array (block.transactions.map Transaction.toJson))).length := by
  rw [Block.toJson_fields,Externals.dump,Externals.dump]
  simp only [Json.dump,Json.dumpFields,List.length_cons,List.length_append,
    quote_toHex_length,block.validator.2,block.validatorPublicKey.2,block.previousHash.2,block.hash.2]
  have keys := key_lengths
  simp only [List.length_nil]
  omega

theorem messageType_length (type : MessageType) :
    (Json.quote (messageTypeToString type)).length = (messageTypeToString type).length + 2 := by
  cases type <;> decide +kernel

theorem messageBody_length (type : MessageType) {payload : Json} (value : payload.isNull = false) :
    (messageBody ext ⟨type,payload⟩).length =
      22 + (messageTypeToString type).length + (ext.dump payload).length := by
  rw [messageBody,Message.toJson_fields,value,Externals.dump,Externals.dump]
  simp only [Bool.false_eq_true,if_false,Json.dump,Json.dumpFields,List.length_cons,
    List.length_append,messageType_length]
  have keys := key_lengths
  simp only [List.length_nil]
  omega

end
end TitanCore
