import TitanCore.Execution
import TitanCore.StateReplay

/-! The queries by hash. They scan the chain and answer with the first hit; on the chains of a
federation there is no other, so nodes give one answer. -/
namespace TitanCore
open Mempool (NoncesFit)

namespace Blockchain

def findBlockByHash (blockchain : Blockchain) (hash : Hash) : Option Block :=
  blockchain.chain.find? fun block => block.hash == hash

def findTransaction (blockchain : Blockchain) (txHash : Hash) : Option Transaction :=
  blockchain.chain.findSome? fun block => block.transactions.find? fun tx => tx.hash == txHash

end Blockchain

section scanning
variable {α κ : Type} [BEq κ] [LawfulBEq κ] {key : α → κ} {values : List α}

/-- Where keys are distinct, the first hit is the only one. -/
theorem find?_iff_of_nodup (distinct : (values.map key).Nodup) {wanted : κ} {value : α} :
    (values.find? fun value => key value == wanted) = some value ↔ value ∈ values ∧ key value = wanted := by
  constructor
  · intro found
    have hit := List.find?_some found
    exact ⟨List.mem_of_find?_eq_some found,eq_of_beq hit⟩
  · rintro ⟨member,rfl⟩
    cases found : values.find? fun other => key other == key value with
    | none => exact absurd (List.find?_eq_none.mp found value member) (by simp)
    | some other =>
      have hit := List.find?_some found
      rw [List.inj_on_of_nodup_map distinct (List.mem_of_find?_eq_some found) member (eq_of_beq hit)]

end scanning

section ledgers
variable {genesisAllocations : AddressMap UInt64} {chain : List Block}

/-- What replays was applied whole. -/
theorem appliedTransactions_of_replay {state : StateManager} {blocks : List Block} {final : Accounts}
    (replays : replay state.accounts blocks = some final) :
    state.appliedTransactions blocks = blocks.flatMap Block.transactions := by
  induction blocks generalizing state with
  | nil => rfl
  | cons block rest ih =>
    obtain ⟨⟨paid,pays⟩,later⟩ := (replay_cons _ _ _ _).mp replays
    have accepted := (StateManager.applyBlock_pays pays).1
    rw [← applyBlock_accounts state block] at later
    rw [StateManager.appliedTransactions,if_pos accepted,ih later,List.flatMap_cons]

theorem Executed.pairs_nodup (executed : Executed genesisAllocations chain)
    (nonces : ∀ block ∈ chain, NoncesFit block.transactions) :
    ((chain.tail.flatMap Block.transactions).map fun tx => (tx.sender,tx.nonce)).Nodup := by
  have applied := appliedTransactions_of_replay executed.replays
  apply StateManager.nodup_pairs
  intro sender
  have numbered := StateManager.applyBlocks_numbered (StateManager.create genesisAllocations) chain.tail sender
  rw [StateManager.nonceOf_create,applied] at numbered
  have run := (numbered.exact fun tx member => by
    obtain ⟨block,inside,paid⟩ := List.mem_flatMap.mp (List.mem_of_mem_filter member)
    exact nonces block (List.mem_of_mem_tail inside) tx paid).1
  have numbers : ((StateManager.sentBy sender (chain.tail.flatMap Block.transactions)).map fun tx =>
      tx.nonce.toNat).Nodup := by
    rw [run]
    exact List.nodup_range
  have composed : (fun tx : Transaction => tx.nonce.toNat) = UInt64.toNat ∘ Transaction.nonce := rfl
  rw [composed,← List.map_map] at numbers
  exact numbers.of_map

end ledgers

section network
variable {ι : Type} {ext : Externals} {config : ι → Config} {world : ι → Process}

section chain
variable (safe : Safe ext config world) {i : ι} {node : Node} (memory : (world i).memory? = some node)
  (orderly : Orderly ext world)
include safe memory

include orderly in
theorem Safe.hashes_nodup : (node.blockchain.chain.map Block.hash).Nodup := by
  obtain ⟨genesis,created,grown⟩ := (safe.memory memory).1.grown
  refine (grown.nodup (createGenesisBlock_index created)).map_on fun a inA b inB same => ?_
  obtain ⟨k,at_k⟩ := List.mem_iff_getElem?.mp inA
  obtain ⟨l,at_l⟩ := List.mem_iff_getElem?.mp inB
  have digests : ext.sha256 (headerPreimage ext a) = ext.sha256 (headerPreimage ext b) :=
    (grown.hash_at created at_k).trans (same.trans (grown.hash_at created at_l).symm)
  have headers := orderly.free a b (.held memory inA) (.held memory inB) digests
  have level := congrArg UInt64.toNat (headerPreimage_injective ext headers).1
  rw [grown.index_at created at_k,grown.index_at created at_l] at level
  rw [level,at_l] at at_k
  exact (Option.some.inj at_k).symm

theorem Safe.transaction_hash {block : Block} (member : block ∈ node.blockchain.chain) {tx : Transaction}
    (paid : tx ∈ block.transactions) : computeTransactionHash ext tx = tx.hash := by
  obtain ⟨genesis,created,grown⟩ := (safe.memory memory).1.grown
  obtain ⟨k,at_k⟩ := List.mem_iff_getElem?.mp member
  by_cases first : k = 0
  · rw [first,grown.first_at,Option.some.injEq] at at_k
    rw [← at_k,createGenesisBlock_transactions created] at paid
    cases paid
  · have verified := (grown.extends_at (Nat.one_le_iff_ne_zero.mpr first) at_k).verified
    exact ((verifyTransaction_iff ext tx).mp (((verifyBlock_iff ext block).mp verified).2.2.2 tx paid)).2.1

include orderly in
theorem Safe.transactions_nodup (executed : Executed (config i).genesisAllocations node.blockchain.chain)
    (nonces : ∀ block ∈ node.blockchain.chain, NoncesFit block.transactions) :
    ((node.blockchain.chain.flatMap Block.transactions).map Transaction.hash).Nodup := by
  obtain ⟨genesis,created,grown⟩ := (safe.memory memory).1.grown
  have all : node.blockchain.chain.flatMap Block.transactions =
      node.blockchain.chain.tail.flatMap Block.transactions := by
    obtain ⟨rest,whole⟩ := grown.head
    rw [← whole,List.singleton_append,List.flatMap_cons,createGenesisBlock_transactions created]
    rfl
  have pairs := executed.pairs_nodup nonces
  rw [← all] at pairs
  refine pairs.of_map.map_on fun a inA b inB same => ?_
  obtain ⟨x,inX,paidA⟩ := List.mem_flatMap.mp inA
  obtain ⟨y,inY,paidB⟩ := List.mem_flatMap.mp inB
  have digests : ext.sha256 (transactionPreimage ext a) = ext.sha256 (transactionPreimage ext b) :=
    (safe.transaction_hash memory inX paidA).trans (same.trans (safe.transaction_hash memory inY paidB).symm)
  have texts := digest_injective (orderly.apart x y (.held memory inX) (.held memory inY))
    (List.mem_cons_of_mem _ (List.mem_cons_of_mem _ (List.mem_map_of_mem paidA)))
    (List.mem_cons_of_mem _ (List.mem_cons_of_mem _ (List.mem_map_of_mem paidB))) digests
  obtain ⟨sender,-,-,nonce,-⟩ := transactionPreimage_injective ext texts
  exact List.inj_on_of_nodup_map pairs inA inB (by rw [sender,nonce])

/-- Where a lower node has a block, a higher one has one of the same hash, index and transactions. -/
theorem Safe.counterpart (federation : Federation ext config) (orderly : Orderly ext world) {j : ι} {other : Node}
    (memory' : (world j).memory? = some other)
    (below : other.blockchain.chain.length ≤ node.blockchain.chain.length) {k : Nat} {block : Block}
    (at_k : other.blockchain.chain[k]? = some block) :
    ∃ same, node.blockchain.chain[k]? = some same ∧ same.index = block.index ∧ same.hash = block.hash ∧
      same.transactions.map Transaction.content = block.transactions.map Transaction.content := by
  have inside : k < node.blockchain.chain.length := (List.getElem?_eq_some_iff.mp at_k).1.trans_le below
  have at_k' := List.getElem?_eq_getElem inside
  obtain ⟨genesis,created,grown⟩ := (safe.memory memory).1.grown
  obtain ⟨genesis',created',grown'⟩ := (safe.memory memory').1.grown
  refine ⟨_,at_k',UInt64.toNat.inj ?_,safe.agree_at federation orderly.free memory memory' at_k' at_k,
    safe.same_transactions federation orderly memory memory' at_k' at_k⟩
  rw [grown.index_at created at_k',grown'.index_at created' at_k]

end chain

variable [DecidableEq ι]

/-- A node of a federation finds what is on its chain, each block and each transaction under its hash
alone, and what any node that is no higher finds: the block of the same index, the transaction with
the same content. -/
theorem federation_lookups (parses : ext.ParseUndoesDump) (federation : Federation ext config)
    (allocations : ∀ i j, (config i).genesisAllocations = (config j).genesisAllocations)
    (fits : ∀ i, StateManager.allocated (config i).genesisAllocations < 2 ^ 64)
    (reached : OrderlyReachable ext config world) {i : ι} {node : Node} (memory : (world i).memory? = some node)
    (nonces : ∀ block ∈ node.blockchain.chain, NoncesFit block.transactions) :
    ((node.blockchain.chain.flatMap Block.transactions).map Transaction.hash).Nodup ∧
    (∀ hash block, node.blockchain.findBlockByHash hash = some block ↔
      block ∈ node.blockchain.chain ∧ block.hash = hash) ∧
    (∀ txHash tx, node.blockchain.findTransaction txHash = some tx ↔
      (∃ block ∈ node.blockchain.chain, tx ∈ block.transactions) ∧ tx.hash = txHash) ∧
    ∀ j other, (world j).memory? = some other → other.blockchain.chain.length ≤ node.blockchain.chain.length →
      (∀ hash block, other.blockchain.findBlockByHash hash = some block →
        ∃ same, node.blockchain.findBlockByHash hash = some same ∧ same.index = block.index) ∧
      ∀ txHash tx, other.blockchain.findTransaction txHash = some tx →
        ∃ same, node.blockchain.findTransaction txHash = some same ∧ same.content = tx.content := by
  have safe := reached.reachable.safe parses federation
  have orderly := reached.orderly
  have executed := reached.executed parses federation allocations fits memory
  have distinct := safe.transactions_nodup memory orderly executed nonces
  have blocks (hash : Hash) (block : Block) : node.blockchain.findBlockByHash hash = some block ↔
      block ∈ node.blockchain.chain ∧ block.hash = hash :=
    find?_iff_of_nodup (safe.hashes_nodup memory orderly)
  have transactions (txHash : Hash) (tx : Transaction) : node.blockchain.findTransaction txHash = some tx ↔
      (∃ block ∈ node.blockchain.chain, tx ∈ block.transactions) ∧ tx.hash = txHash := by
    rw [Blockchain.findTransaction,← List.find?_flatMap,find?_iff_of_nodup distinct,List.mem_flatMap]
  refine ⟨distinct,blocks,transactions,fun j other memory' below => ?_⟩
  refine ⟨fun hash block found => ?_,fun txHash tx found => ?_⟩
  · have hit : block.hash = hash :=
      eq_of_beq (List.find?_some (p := fun block : Block => block.hash == hash) found)
    obtain ⟨k,at_k⟩ := List.mem_iff_getElem?.mp (List.mem_of_find?_eq_some found)
    obtain ⟨same,at_k',level,hashes,-⟩ := safe.counterpart memory federation orderly memory' below at_k
    exact ⟨same,(blocks hash same).mpr ⟨List.mem_of_getElem? at_k',hashes.trans hit⟩,level⟩
  · obtain ⟨block,member,first⟩ := List.exists_of_findSome?_eq_some found
    have hit : tx.hash = txHash :=
      eq_of_beq (List.find?_some (p := fun tx : Transaction => tx.hash == txHash) first)
    obtain ⟨k,at_k⟩ := List.mem_iff_getElem?.mp member
    obtain ⟨same,at_k',-,-,contents⟩ := safe.counterpart memory federation orderly memory' below at_k
    have listed : tx.content ∈ same.transactions.map Transaction.content := by
      rw [contents]
      exact List.mem_map_of_mem (List.mem_of_find?_eq_some first)
    obtain ⟨twin,paid,content⟩ := List.mem_map.mp listed
    have hashes : twin.content.hash = tx.content.hash := congrArg Transaction.hash content
    have there : ∃ block ∈ node.blockchain.chain, twin ∈ block.transactions := ⟨same,List.mem_of_getElem? at_k',paid⟩
    exact ⟨twin,(transactions txHash twin).mpr ⟨there,hashes.trans hit⟩,content⟩

end network

open Reference in
/-- The validator finds the payment that it has put into a block. -/
theorem federation_lookups_spending : ∃ node, (pairWorld spending [.boot []] true).memory? = some node ∧
    node.blockchain.findTransaction payment.hash = some payment := by
  have ran : (pairWorld spending [.boot []] true).memory?.any (fun node => node.blockchain.chain = [genesis,paying]) =
      true := by decide +kernel
  obtain ⟨node,memory,holds⟩ := (Option.any_eq_true _ _).mp ran
  have chain := of_decide_eq_true holds
  have allocations : ∀ i j, (pair i).genesisAllocations = (pair j).genesisAllocations := fun _ _ => rfl
  have fits : ∀ i, StateManager.allocated (pair i).genesisAllocations < 2 ^ 64 := by decide +kernel
  have nonces : ∀ block ∈ node.blockchain.chain, NoncesFit block.transactions := by
    rw [chain]
    decide +kernel
  obtain ⟨-,-,transactions,-⟩ :=
    federation_lookups libraries_parse pair_federation allocations fits pair_spending memory nonces
  refine ⟨node,memory,(transactions _ _).mpr ⟨⟨paying,?_,List.mem_singleton_self _⟩,rfl⟩⟩
  rw [chain]
  exact List.mem_cons_of_mem _ (List.mem_singleton_self _)

end TitanCore
