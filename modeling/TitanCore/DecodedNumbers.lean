import Mathlib.Data.List.Forall2
import TitanCore.Block

/-! What the two decoders make of JSON numbers. `get<uint64_t>` casts every number it finds, so a
negative or floating one is rewritten; all other numbers come through as they are. -/
namespace TitanCore

/-- A number written as a non-negative integer below 2^64, and its value. -/
def Json.Denotes : Json → UInt64 → Prop
  | .unsigned m,n => m = n
  | .integer m,n => m.toInt = n.toNat
  | _,_ => False

/-- A number a decoder should refuse: a negative one, or one that is kept as a double because it
has a fraction, an exponent or too many digits. -/
def Json.Irregular : Json → Prop
  | .integer m => m.toInt < 0
  | .float _ => True
  | _ => False

def Json.isNumber : Json → Bool
  | .unsigned _ | .integer _ | .float _ => true
  | _ => false

theorem bind_ok_iff {ε α β : Type} {x : Except ε α} {f : α → Except ε β} {b : β} :
    (x >>= f) = .ok b ↔ ∃ a, x = .ok a ∧ f a = .ok b := by
  cases x with
  | error e => simp
  | ok a => simp

section fields

def ReadsNumber (j : Json) (key : Bytes) (n : UInt64) : Prop :=
  ∃ number, j.at? key = .ok number ∧ number.getUInt64 = .ok n

def ReadsArray {n : Nat} (j : Json) (key : Bytes) (data : ByteArr n) : Prop :=
  ∃ s, j.at? key = .ok (.string s) ∧ fromHex s = data.val

structure Shaped (arrays : List (Bytes × Nat)) (numbers : List Bytes) (j : Json) : Prop where
  array : ∀ field ∈ arrays, ∃ s, j.at? field.1 = .ok (.string s) ∧ (fromHex s).length = field.2
  signature : ∃ s, j.at? (str "signature") = .ok (.string s)
  number : ∀ key ∈ numbers, ∃ found, j.at? key = .ok found ∧ found.isNumber = true

def Regular (numbers : List Bytes) (j : Json) : Prop :=
  ∀ key ∈ numbers, ∀ found, j.at? key = .ok found → ¬ found.Irregular

def KeepsNumbers (j : Json) (fields : List (Bytes × UInt64)) : Prop :=
  ∀ field ∈ fields, ∃ found, j.at? field.1 = .ok found ∧ found.Denotes field.2

theorem getUInt64_isNumber {j : Json} : (∃ n, j.getUInt64 = .ok n) ↔ j.isNumber = true := by
  cases j <;> simp [Json.getUInt64,Json.isNumber]

theorem denotes_iff {j : Json} {n : UInt64} (read : j.getUInt64 = .ok n) : j.Denotes n ↔ ¬ j.Irregular := by
  cases j with
  | unsigned m =>
    simp only [Json.getUInt64,Except.ok.injEq] at read
    simp [Json.Denotes,Json.Irregular,read]
  | integer m =>
    simp only [Json.getUInt64,Except.ok.injEq] at read
    subst read
    simp only [Json.Denotes,Json.Irregular,Int.not_lt]
    constructor
    · intro same
      omega
    · intro nonneg
      have below : 0 ≤ m := Int64.le_iff_toInt_le.mpr nonneg
      rw [Int64.toNat_toUInt64_of_le below,Int64.toNatClampNeg,Int.toNat_of_nonneg nonneg]
  | float x => simp [Json.Denotes,Json.Irregular]
  | null | boolean _ | string _ | array _ | object _ => simp [Json.getUInt64] at read

theorem ReadsNumber.denotes {j : Json} {key : Bytes} {n : UInt64} (reads : ReadsNumber j key n)
    (regular : ∀ found, j.at? key = .ok found → ¬ found.Irregular) :
    ∃ found, j.at? key = .ok found ∧ found.Denotes n := by
  obtain ⟨number,held,read⟩ := reads
  exact ⟨number,held,(denotes_iff read).mpr (regular number held)⟩

theorem toArray_ok_iff {n : Nat} {data : Bytes} {failure : Exn} {array : ByteArr n} :
    toArray n data failure = .ok array ↔ data = array.val := by
  unfold toArray
  split
  · simp [Subtype.ext_iff]
  · next long =>
    simp only [reduceCtorEq,false_iff]
    rintro rfl
    exact long array.2

theorem getString_ok_iff {j : Json} {s : Bytes} : j.getString = .ok s ↔ j = .string s := by
  cases j <;> simp [Json.getString]

theorem ReadsArray.length {n : Nat} {j : Json} {key : Bytes} {data : ByteArr n}
    (reads : ReadsArray j key data) : ∃ s, j.at? key = .ok (.string s) ∧ (fromHex s).length = n := by
  obtain ⟨s,held,decoded⟩ := reads
  exact ⟨s,held,by rw [decoded]; exact data.2⟩

theorem readsArray_of_length {n : Nat} {j : Json} {key : Bytes}
    (found : ∃ s, j.at? key = .ok (.string s) ∧ (fromHex s).length = n) :
    ∃ data : ByteArr n, ReadsArray j key data := by
  obtain ⟨s,held,length⟩ := found
  exact ⟨⟨fromHex s,length⟩,s,held,rfl⟩

theorem ReadsNumber.number {j : Json} {key : Bytes} {n : UInt64} (reads : ReadsNumber j key n) :
    ∃ found, j.at? key = .ok found ∧ found.isNumber = true := by
  obtain ⟨found,held,read⟩ := reads
  exact ⟨found,held,getUInt64_isNumber.mp ⟨n,read⟩⟩

theorem readsNumber_of_number {j : Json} {key : Bytes}
    (number : ∃ found, j.at? key = .ok found ∧ found.isNumber = true) : ∃ n, ReadsNumber j key n := by
  obtain ⟨found,held,isNumber⟩ := number
  obtain ⟨n,read⟩ := getUInt64_isNumber.mpr isNumber
  exact ⟨n,found,held,read⟩

end fields

/-- Decoding keeps every number, and an irregular one makes it throw. -/
structure DecodesFaithfully {α : Type} (decoded : Except Exn α) (kept : α → Prop) (regular : Prop) : Prop where
  kept : ∀ a, decoded = .ok a → kept a
  thrown : ¬ regular → ∃ e, decoded = .error e

theorem decodesFaithfully_iff {α : Type} {decoded : Except Exn α} {kept : α → Prop} {shape regular : Prop}
    (shaped : (∃ a, decoded = .ok a) ↔ shape) (keeps : ∀ a, decoded = .ok a → regular → kept a) :
    DecodesFaithfully decoded kept regular ↔ (shape → regular) := by
  constructor
  · intro faithful complete
    by_contra irregular
    obtain ⟨a,ok⟩ := shaped.mpr complete
    obtain ⟨e,error⟩ := faithful.thrown irregular
    rw [ok] at error
    cases error
  · intro condition
    refine ⟨fun a ok => keeps a ok (condition (shaped.mp ⟨a,ok⟩)),fun irregular => ?_⟩
    cases result : decoded with
    | error e => exact ⟨e,rfl⟩
    | ok a => exact absurd (condition (shaped.mp ⟨a,result⟩)) irregular

section transactions

def transactionArrays : List (Bytes × Nat) :=
  [(str "sender",20),(str "recipient",20),(str "senderPublicKey",33),(str "hash",32)]

def transactionNumbers : List Bytes := [str "amount",str "nonce",str "timestamp"]

def Transaction.numbers (tx : Transaction) : List (Bytes × UInt64) :=
  [(str "amount",tx.amount),(str "nonce",tx.nonce),(str "timestamp",tx.timestamp)]

structure ReadsTransaction (j : Json) (tx : Transaction) : Prop where
  sender : ReadsArray j (str "sender") tx.sender
  recipient : ReadsArray j (str "recipient") tx.recipient
  senderPublicKey : ReadsArray j (str "senderPublicKey") tx.senderPublicKey
  amount : ReadsNumber j (str "amount") tx.amount
  nonce : ReadsNumber j (str "nonce") tx.nonce
  timestamp : ReadsNumber j (str "timestamp") tx.timestamp
  signature : ∃ s, j.at? (str "signature") = .ok (.string s) ∧ fromHex s = tx.signature
  hash : ReadsArray j (str "hash") tx.hash

theorem transactionFromJson_ok_iff {j : Json} {tx : Transaction} :
    transactionFromJson j = .ok tx ↔ ReadsTransaction j tx := by
  simp only [transactionFromJson,hexToArray,bind_ok_iff,getString_ok_iff,toArray_ok_iff]
  constructor
  · rintro ⟨_,at_sender,_,rfl,sender,decoded_sender,_,at_recipient,_,rfl,recipient,decoded_recipient,
      _,at_key,_,rfl,key,decoded_key,_,at_amount,amount,read_amount,_,at_nonce,nonce,read_nonce,
      _,at_time,time,read_time,_,at_signature,_,rfl,_,at_hash,_,rfl,hash,decoded_hash,made⟩
    cases made
    exact ⟨⟨_,at_sender,decoded_sender⟩,⟨_,at_recipient,decoded_recipient⟩,⟨_,at_key,decoded_key⟩,
      ⟨_,at_amount,read_amount⟩,⟨_,at_nonce,read_nonce⟩,⟨_,at_time,read_time⟩,⟨_,at_signature,rfl⟩,
      ⟨_,at_hash,decoded_hash⟩⟩
  · rintro ⟨⟨_,at_sender,decoded_sender⟩,⟨_,at_recipient,decoded_recipient⟩,⟨_,at_key,decoded_key⟩,
      ⟨_,at_amount,read_amount⟩,⟨_,at_nonce,read_nonce⟩,⟨_,at_time,read_time⟩,⟨_,at_signature,signature⟩,
      ⟨_,at_hash,decoded_hash⟩⟩
    refine ⟨_,at_sender,_,rfl,_,decoded_sender,_,at_recipient,_,rfl,_,decoded_recipient,
      _,at_key,_,rfl,_,decoded_key,_,at_amount,_,read_amount,_,at_nonce,_,read_nonce,
      _,at_time,_,read_time,_,at_signature,_,rfl,_,at_hash,_,rfl,_,decoded_hash,?_⟩
    rw [signature]
    rfl

/-- The JSON texts of transactions, apart from what their numbers are. -/
def TransactionShape (j : Json) : Prop := Shaped transactionArrays transactionNumbers j

theorem transactionFromJson_shaped (j : Json) :
    (∃ tx, transactionFromJson j = .ok tx) ↔ TransactionShape j := by
  simp only [transactionFromJson_ok_iff]
  constructor
  · rintro ⟨tx,reads⟩
    obtain ⟨s,held,-⟩ := reads.signature
    refine ⟨?_,⟨s,held⟩,?_⟩
    · simp only [transactionArrays,List.forall_mem_cons]
      exact ⟨reads.sender.length,reads.recipient.length,reads.senderPublicKey.length,
        reads.hash.length,List.forall_mem_nil _⟩
    · simp only [transactionNumbers,List.forall_mem_cons]
      exact ⟨reads.amount.number,reads.nonce.number,reads.timestamp.number,List.forall_mem_nil _⟩
  · rintro ⟨arrays,⟨s,held⟩,numbers⟩
    simp only [transactionArrays,transactionNumbers,List.forall_mem_cons] at arrays numbers
    obtain ⟨sender,recipient,key,hash,-⟩ := arrays
    obtain ⟨amount,nonce,timestamp,-⟩ := numbers
    obtain ⟨_,sender⟩ := readsArray_of_length sender
    obtain ⟨_,recipient⟩ := readsArray_of_length recipient
    obtain ⟨_,key⟩ := readsArray_of_length key
    obtain ⟨_,hash⟩ := readsArray_of_length hash
    obtain ⟨_,amount⟩ := readsNumber_of_number amount
    obtain ⟨_,nonce⟩ := readsNumber_of_number nonce
    obtain ⟨_,timestamp⟩ := readsNumber_of_number timestamp
    exact ⟨⟨_,_,_,_,_,_,_,_⟩,sender,recipient,key,amount,nonce,timestamp,⟨s,held,rfl⟩,hash⟩

theorem transactionFromJson_kept {j : Json} {tx : Transaction} (decoded : transactionFromJson j = .ok tx)
    (regular : Regular transactionNumbers j) : KeepsNumbers j tx.numbers := by
  have reads := transactionFromJson_ok_iff.mp decoded
  simp only [Regular,transactionNumbers,List.forall_mem_cons] at regular
  obtain ⟨amount,nonce,timestamp,-⟩ := regular
  simp only [KeepsNumbers,Transaction.numbers,List.forall_mem_cons]
  exact ⟨reads.amount.denotes amount,reads.nonce.denotes nonce,reads.timestamp.denotes timestamp,
    List.forall_mem_nil _⟩

end transactions

section blocks

def blockArrays : List (Bytes × Nat) :=
  [(str "previousHash",32),(str "validator",20),(str "validatorPublicKey",33),(str "hash",32)]

def blockNumbers : List Bytes := [str "index",str "timestamp"]

def Block.numbers (block : Block) : List (Bytes × UInt64) :=
  [(str "index",block.index),(str "timestamp",block.timestamp)]

theorem transactionsFromJson_ok_iff {elements : List Json} {transactions : List Transaction} :
    transactionsFromJson elements = .ok transactions ↔
      List.Forall₂ (fun txJson tx => transactionFromJson txJson = .ok tx) elements transactions := by
  induction elements generalizing transactions with
  | nil =>
    rw [transactionsFromJson,List.forall₂_nil_left_iff,Except.ok.injEq,eq_comm]
  | cons txJson rest ih =>
    simp only [transactionsFromJson,bind_ok_iff,List.forall₂_cons_left_iff]
    constructor
    · rintro ⟨tx,head,txs,tail,made⟩
      cases made
      exact ⟨tx,txs,head,ih.mp tail,rfl⟩
    · rintro ⟨tx,txs,head,tail,rfl⟩
      exact ⟨tx,head,txs,ih.mpr tail,rfl⟩

structure ReadsBlock (j : Json) (block : Block) : Prop where
  index : ReadsNumber j (str "index") block.index
  timestamp : ReadsNumber j (str "timestamp") block.timestamp
  previousHash : ReadsArray j (str "previousHash") block.previousHash
  validator : ReadsArray j (str "validator") block.validator
  validatorPublicKey : ReadsArray j (str "validatorPublicKey") block.validatorPublicKey
  signature : ∃ s, j.at? (str "signature") = .ok (.string s) ∧ fromHex s = block.signature
  hash : ReadsArray j (str "hash") block.hash
  transactions : ∃ txs, j.at? (str "transactions") = .ok txs ∧
    List.Forall₂ (fun txJson tx => transactionFromJson txJson = .ok tx) txs.elements block.transactions

theorem blockFromJson_ok_iff {j : Json} {block : Block} :
    blockFromJson j = .ok block ↔ ReadsBlock j block := by
  simp only [blockFromJson,hexToArray,bind_ok_iff,getString_ok_iff,toArray_ok_iff,
    transactionsFromJson_ok_iff]
  constructor
  · rintro ⟨_,at_index,index,read_index,_,at_time,time,read_time,_,at_previous,_,rfl,previous,
      decoded_previous,_,at_validator,_,rfl,validator,decoded_validator,_,at_key,_,rfl,key,decoded_key,
      _,at_signature,_,rfl,_,at_hash,_,rfl,hash,decoded_hash,_,at_txs,txs,decoded_txs,made⟩
    cases made
    exact ⟨⟨_,at_index,read_index⟩,⟨_,at_time,read_time⟩,⟨_,at_previous,decoded_previous⟩,
      ⟨_,at_validator,decoded_validator⟩,⟨_,at_key,decoded_key⟩,⟨_,at_signature,rfl⟩,
      ⟨_,at_hash,decoded_hash⟩,⟨_,at_txs,decoded_txs⟩⟩
  · rintro ⟨⟨_,at_index,read_index⟩,⟨_,at_time,read_time⟩,⟨_,at_previous,decoded_previous⟩,
      ⟨_,at_validator,decoded_validator⟩,⟨_,at_key,decoded_key⟩,⟨_,at_signature,signature⟩,
      ⟨_,at_hash,decoded_hash⟩,⟨_,at_txs,decoded_txs⟩⟩
    refine ⟨_,at_index,_,read_index,_,at_time,_,read_time,_,at_previous,_,rfl,_,decoded_previous,
      _,at_validator,_,rfl,_,decoded_validator,_,at_key,_,rfl,_,decoded_key,_,at_signature,_,rfl,
      _,at_hash,_,rfl,_,decoded_hash,_,at_txs,_,decoded_txs,?_⟩
    rw [signature]
    rfl

/-- The JSON texts of blocks, apart from what their numbers and those of their transactions are. -/
structure BlockShape (j : Json) : Prop where
  header : Shaped blockArrays blockNumbers j
  transactions : ∃ txs, j.at? (str "transactions") = .ok txs ∧
    ∀ txJson ∈ txs.elements, TransactionShape txJson

structure RegularBlock (j : Json) : Prop where
  header : Regular blockNumbers j
  transactions : ∀ txs, j.at? (str "transactions") = .ok txs →
    ∀ txJson ∈ txs.elements, Regular transactionNumbers txJson

structure KeepsBlock (j : Json) (block : Block) : Prop where
  header : KeepsNumbers j block.numbers
  transactions : ∃ txs, j.at? (str "transactions") = .ok txs ∧
    List.Forall₂ (fun txJson tx => KeepsNumbers txJson tx.numbers) txs.elements block.transactions

theorem exists_forall₂ {α β : Type} {R : α → β → Prop} {l : List α} :
    (∃ m, List.Forall₂ R l m) ↔ ∀ a ∈ l, ∃ b, R a b := by
  induction l with
  | nil => simp
  | cons a l ih =>
    rw [List.forall_mem_cons,← ih]
    constructor
    · rintro ⟨m,all⟩
      cases all with
      | cons head tail => exact ⟨⟨_,head⟩,_,tail⟩
    · rintro ⟨⟨b,head⟩,m,tail⟩
      exact ⟨b :: m,.cons head tail⟩

theorem blockFromJson_shaped (j : Json) : (∃ block, blockFromJson j = .ok block) ↔ BlockShape j := by
  simp only [blockFromJson_ok_iff]
  constructor
  · rintro ⟨block,reads⟩
    obtain ⟨s,held,-⟩ := reads.signature
    obtain ⟨txs,at_txs,decoded⟩ := reads.transactions
    refine ⟨⟨?_,⟨s,held⟩,?_⟩,txs,at_txs,fun txJson member => ?_⟩
    · simp only [blockArrays,List.forall_mem_cons]
      exact ⟨reads.previousHash.length,reads.validator.length,reads.validatorPublicKey.length,
        reads.hash.length,List.forall_mem_nil _⟩
    · simp only [blockNumbers,List.forall_mem_cons]
      exact ⟨reads.index.number,reads.timestamp.number,List.forall_mem_nil _⟩
    · exact (transactionFromJson_shaped txJson).mp (exists_forall₂.mp ⟨_,decoded⟩ txJson member)
  · rintro ⟨⟨arrays,⟨s,held⟩,numbers⟩,txs,at_txs,shapes⟩
    simp only [blockArrays,blockNumbers,List.forall_mem_cons] at arrays numbers
    obtain ⟨previous,validator,key,hash,-⟩ := arrays
    obtain ⟨index,timestamp,-⟩ := numbers
    obtain ⟨_,previous⟩ := readsArray_of_length previous
    obtain ⟨_,validator⟩ := readsArray_of_length validator
    obtain ⟨_,key⟩ := readsArray_of_length key
    obtain ⟨_,hash⟩ := readsArray_of_length hash
    obtain ⟨_,index⟩ := readsNumber_of_number index
    obtain ⟨_,timestamp⟩ := readsNumber_of_number timestamp
    obtain ⟨_,decoded⟩ := exists_forall₂.mpr fun txJson member =>
      (transactionFromJson_shaped txJson).mpr (shapes txJson member)
    exact ⟨⟨_,_,_,_,_,_,_,_⟩,index,timestamp,previous,validator,key,⟨s,held,rfl⟩,hash,txs,at_txs,decoded⟩

theorem blockFromJson_kept {j : Json} {block : Block} (decoded : blockFromJson j = .ok block)
    (regular : RegularBlock j) : KeepsBlock j block := by
  have reads := blockFromJson_ok_iff.mp decoded
  have header := regular.header
  simp only [Regular,blockNumbers,List.forall_mem_cons] at header
  obtain ⟨index,timestamp,-⟩ := header
  obtain ⟨txs,at_txs,decoded_txs⟩ := reads.transactions
  refine ⟨?_,txs,at_txs,?_⟩
  · simp only [KeepsNumbers,Block.numbers,List.forall_mem_cons]
    exact ⟨reads.index.denotes index,reads.timestamp.denotes timestamp,List.forall_mem_nil _⟩
  · refine List.forall₂_iff_get.mpr ⟨decoded_txs.length_eq,fun i inside inside' => ?_⟩
    exact transactionFromJson_kept (decoded_txs.get inside inside')
      (regular.transactions txs at_txs _ (List.get_mem _ _))

end blocks

/-- Decoding is faithful exactly for the JSON values that are incomplete anyway or hold regular
numbers only: of a transaction, and of a block with its transactions. -/
theorem decoding_faithful_iff (j : Json) :
    (DecodesFaithfully (transactionFromJson j) (fun tx => KeepsNumbers j tx.numbers)
        (Regular transactionNumbers j) ↔ (TransactionShape j → Regular transactionNumbers j)) ∧
    (DecodesFaithfully (blockFromJson j) (KeepsBlock j) (RegularBlock j) ↔
      (BlockShape j → RegularBlock j)) :=
  ⟨decodesFaithfully_iff (transactionFromJson_shaped j) fun _ => transactionFromJson_kept,
    decodesFaithfully_iff (blockFromJson_shaped j) fun _ => blockFromJson_kept⟩

/-- An amount of -1 is decoded, as 2^64 - 1. -/
def negativeAmount : Json := .object [
  (str "amount",.integer (-1)),(str "hash",.string (toHex (List.replicate 32 0))),
  (str "nonce",.unsigned 0),(str "recipient",.string (toHex (List.replicate 20 2))),
  (str "sender",.string (toHex (List.replicate 20 1))),
  (str "senderPublicKey",.string (toHex (List.replicate 33 3))),(str "signature",.string []),
  (str "timestamp",.unsigned 0)]

theorem decoding_rewrites : ¬ ∀ j, DecodesFaithfully (transactionFromJson j)
    (fun tx => KeepsNumbers j tx.numbers) (Regular transactionNumbers j) := by
  intro always
  have irregular : ¬ Regular transactionNumbers negativeAmount := by
    intro regular
    exact regular (str "amount") List.mem_cons_self (.integer (-1)) rfl
      (show (-1 : Int64).toInt < 0 by decide)
  obtain ⟨e,thrown⟩ := (always negativeAmount).thrown irregular
  have decoded : (transactionFromJson negativeAmount).toOption.any
      (fun tx => tx.amount = 18446744073709551615) = true := by decide +kernel
  rw [thrown] at decoded
  cases decoded

end TitanCore
