import TitanCore.MempoolRevalidate
import TitanCore.StateSequence

/-! The transactions chosen for a block can be applied, wherever the selection is cut off, and
the rebuild after the block loses none of the others. -/
namespace TitanCore
open Mempool (nonceValue amountValue NoncesFit)

namespace StateManager

theorem getBalance_eq (state : StateManager) (address : Address) :
    state.getBalance address = balanceOf state.accounts address := by
  unfold getBalance balanceOf
  cases state.accounts.lookup address <;> rfl

theorem balanceOf_transfer {accounts : Accounts} {account : AccountState} {tx : Transaction}
    (payable : Payable accounts tx account) (fits : supply accounts < 2 ^ 64) (address : Address) :
    (balanceOf accounts address).toNat ≤ (balanceOf (transfer accounts account tx) address).toNat +
      if address = tx.sender then amountValue tx else 0 := by
  have moved := balanceOf_transfer_exact payable fits address
  simp only [amountValue]
  omega

theorem mem_transfer {accounts : Accounts} {account : AccountState} {tx : Transaction} {address : Address}
    (held : address ∈ accounts) : address ∈ transfer accounts account tx := by
  unfold transfer
  rw [Finmap.mem_insert,Finmap.mem_insert]
  exact .inr (.inr held)

theorem Pays.keeps_account {accounts final : Accounts} {transactions : List Transaction} {address : Address}
    (pays : Pays accounts transactions final) (held : address ∈ accounts) : address ∈ final := by
  induction pays with
  | nil => exact held
  | cons _ _ ih => exact ih (mem_transfer held)

structure Affords (accounts : Accounts) (address : Address) (sent : List Transaction) : Prop where
  account : sent ≠ [] → address ∈ accounts
  isRun : GreedyRun.IsRun nonceValue amountValue (nonceOf accounts address).toNat
    (balanceOf accounts address).toNat sent sent

structure Spends (before after : Accounts) (address : Address) (sent : List Transaction) : Prop where
  nonce : (nonceOf after address).toNat = (nonceOf before address).toNat + sent.length
  balance : (balanceOf before address).toNat ≤ (balanceOf after address).toNat + (sent.map amountValue).sum
  account : address ∈ before → address ∈ after

theorem Affords.payable {accounts : Accounts} {tx : Transaction} {rest : List Transaction}
    (affords : Affords accounts tx.sender (tx :: rest)) : ∃ account, Payable accounts tx account := by
  obtain ⟨nonce,funded,-⟩ := affords.isRun.uncons
  obtain ⟨account,held⟩ := Finmap.mem_iff.mp (affords.account (List.cons_ne_nil tx rest))
  rw [nonceOf,held] at nonce
  rw [balanceOf,held] at funded
  exact ⟨account,held,UInt64.le_iff_toNat_le.mpr funded,UInt64.toNat.inj nonce⟩

theorem Spends.transfer {accounts : Accounts} {account : AccountState} {tx : Transaction}
    (payable : Payable accounts tx account) (fits : supply accounts < 2 ^ 64)
    (nonce : nonceValue tx + 1 < 2 ^ 64) (address : Address) :
    Spends accounts (transfer accounts account tx) address (sentBy address [tx]) := by
  have balance := balanceOf_transfer payable fits address
  have current : nonceOf accounts tx.sender = account.nonce := by
    rw [nonceOf,payable.held]
    rfl
  by_cases self : address = tx.sender
  · rw [if_pos self] at balance
    subst self
    rw [Mempool.sentBy_self]
    refine ⟨?_,by simpa [sentBy] using balance,mem_transfer⟩
    rw [nonceOf_transfer,if_pos rfl,current,← payable.ordered,UInt64.toNat_add]
    exact Nat.mod_eq_of_lt nonce
  · rw [if_neg self] at balance
    rw [Mempool.sentBy_other self]
    refine ⟨?_,by simpa [sentBy] using balance,mem_transfer⟩
    rw [nonceOf_transfer,if_neg self]
    rfl

theorem Spends.append {before middle after : Accounts} {address : Address}
    {first second : List Transaction} (earlier : Spends before middle address first)
    (later : Spends middle after address second) : Spends before after address (first ++ second) := by
  refine ⟨?_,?_,fun held => later.account (earlier.account held)⟩
  · rw [later.nonce,earlier.nonce,List.length_append,Nat.add_assoc]
  · have one := earlier.balance
    have other := later.balance
    rw [List.map_append,List.sum_append]
    omega

theorem Affords.front {accounts : Accounts} {address : Address} {first second : List Transaction}
    (affords : Affords accounts address (first ++ second)) : Affords accounts address first :=
  ⟨fun more => affords.account (by simp [more]),affords.isRun.split.1.self⟩

/-- What an account affords after the first part of its transactions. -/
theorem Affords.rest {before after : Accounts} {address : Address} {first second : List Transaction}
    (affords : Affords before address (first ++ second)) (settled : Spends before after address first) :
    Affords after address second := by
  have balance := settled.balance
  refine ⟨fun more => settled.account (affords.account (by simp [more])),?_⟩
  rw [settled.nonce]
  exact (affords.isRun.split.2.richer (by omega)).self

/-- Senders that can each pay for their own transactions can pay for any mixture of them: what
they receive meanwhile does no harm. -/
theorem pays_of_affords {transactions : List Transaction} {accounts : Accounts}
    (fits : supply accounts < 2 ^ 64) (nonces : NoncesFit transactions)
    (affords : ∀ address, Affords accounts address (sentBy address transactions)) :
    ∃ final, Pays accounts transactions final ∧
      ∀ address, Spends accounts final address (sentBy address transactions) := by
  induction transactions generalizing accounts with
  | nil => exact ⟨accounts,.nil accounts,fun _ => ⟨rfl,Nat.le_refl _,id⟩⟩
  | cons tx rest ih =>
    obtain ⟨nonce,nonces⟩ := List.forall_mem_cons.mp nonces
    have own := affords tx.sender
    rw [Mempool.sentBy_self] at own
    obtain ⟨account,payable⟩ := own.payable
    have parts : ∀ address, sentBy address (tx :: rest) = sentBy address [tx] ++ sentBy address rest :=
      fun address => sentBy_append address [tx] rest
    have settled := Spends.transfer payable fits nonce
    obtain ⟨final,pays,later⟩ := ih (by rw [(supply_transfer_exact payable fits).1]; exact fits) nonces
      fun address => (parts address ▸ affords address).rest (settled address)
    refine ⟨final,.cons payable pays,fun address => ?_⟩
    rw [parts]
    exact (settled address).append (later address)

end StateManager

namespace Mempool
open StateManager (sentBy nonceOf balanceOf supply Affords Spends)

/-- What a pool is used for between two blocks, and a complete block cycle. -/
inductive Stage where
  | addTransaction (tx : Transaction)
  | blockCycle (block : Block) (order : IterationOrder)

def Stage.calls : Stage → List Call
  | .addTransaction tx => [.addTransaction tx]
  | .blockCycle block order => [.applyBlock block,.removeMinedTransactions block,.revalidate order]

section run
variable {ext : Externals}

theorem Stage.consistent {now : StateManager × Mempool} (stage : Stage)
    (consistent : Consistent ext now.1 now.2) :
    Consistent ext (stage.calls.foldl (perform ext) now).1 (stage.calls.foldl (perform ext) now).2 := by
  cases stage with
  | addTransaction tx => exact addTransaction_consistent consistent tx
  | blockCycle block order => exact revalidate_consistent ext order _ _

/-- Between complete cycles the pool agrees with the ledger. -/
theorem stages_consistent (state : StateManager) (stages : List Stage) :
    Consistent ext (performs ext state (stages.flatMap Stage.calls)).1
      (performs ext state (stages.flatMap Stage.calls)).2 := by
  induction stages using List.reverseRecOn with
  | nil => exact empty_consistent ext state
  | append_singleton stages stage ih =>
    rw [List.flatMap_append,performs,List.foldl_append,List.flatMap_singleton]
    exact stage.consistent ih

theorem supply_performs (state : StateManager) (calls : List Call) (fits : supply state.accounts < 2 ^ 64) :
    supply (performs ext state calls).1.accounts = supply state.accounts := by
  induction calls using List.reverseRecOn with
  | nil => rfl
  | append_singleton calls call ih =>
    rw [performs,List.foldl_append,List.foldl_cons,List.foldl_nil]
    cases call with
    | applyBlock block =>
      exact (StateManager.supply_applyBlock_exact _ block (by rw [← performs,ih]; exact fits)).trans ih
    | addTransaction tx => exact ih
    | removeMinedTransactions block => exact ih
    | revalidate order => exact ih

end run

section selection
variable {ext : Externals} {state : StateManager} {pool : Mempool}

/-- As long as no pending nonce is the last one, the run of pending nonces does not wrap. -/
theorem Consistent.covered (consistent : Consistent ext state pool)
    (fits : NoncesFit pool.transactions) (address : Address) : Covered state pool address := by
  have nonces := consistent.nonces address
  have balance := consistent.balance address
  have room : (state.getNonce address).toNat + (pool.pendingOf address).card < 2 ^ 64 := by
    by_contra full
    have small := (state.getNonce address).toNat_lt
    have last : state.getNonce address + UInt64.ofNat (2 ^ 64 - 1 - (state.getNonce address).toNat) ∈
        (pool.pendingOf address).map Transaction.nonce := by
      rw [nonces,nonceRun]
      exact Multiset.mem_map_of_mem _ (Multiset.mem_range.mpr (by omega))
    obtain ⟨tx,member,nonce⟩ := Multiset.mem_map.mp last
    have fit := fits tx (mem_transactions.mpr (mem_pendingOf.mp member).1)
    have value : nonceValue tx = 2 ^ 64 - 1 := by
      rw [nonceValue,nonce,UInt64.toNat_add,UInt64.toNat_ofNat']
      omega
    omega
  refine ⟨?_,by omega,consistent.account address⟩
  rw [← nonceRun_toNat room,← nonces,Multiset.map_map]
  rfl

theorem Covered.affords {address : Address} (covered : Covered state pool address) (order : IterationOrder) :
    Affords state.accounts address
      (sentBy address (sortTransactions (order.visit pool.transactions))) := by
  have run := covered.sorted order
  rw [StateManager.getNonce_eq,StateManager.getBalance_eq] at run
  refine ⟨fun some_sent => ?_,run⟩
  have account := covered.account (by
    rw [← sentBy_sorted_perm order]
    exact fun none_sent => some_sent (Multiset.coe_eq_zero _ |>.mp none_sent))
  exact Finmap.lookup_isSome.mp account

/-- What is chosen for a block can be paid for, wherever the selection is cut off. -/
theorem Consistent.pays_selection (consistent : Consistent ext state pool)
    (nonces : NoncesFit pool.transactions) (fits : supply state.accounts < 2 ^ 64)
    (order : IterationOrder) (maxCount : Nat) :
    ∃ final, StateManager.Pays state.accounts (pool.getTransactionsForBlock order maxCount) final ∧
      ∀ address, Spends state.accounts final address
        (sentBy address (pool.getTransactionsForBlock order maxCount)) := by
  refine StateManager.pays_of_affords fits
    (fun tx member => nonces tx (mem_getTransactionsForBlock member)) fun address => ?_
  have all := (consistent.covered nonces address).affords order
  rw [← List.take_append_drop maxCount (sortTransactions (order.visit pool.transactions)),
    StateManager.sentBy_append] at all
  exact all.front

/-- Taking out the chosen transactions leaves the end of the sorted list. -/
theorem removeMined_perm (filed : Filed ext pool) (order : IterationOrder) {maxCount : Nat} {block : Block}
    (chosen : block.transactions = pool.getTransactionsForBlock order maxCount) :
    (pool.removeMinedTransactions block).transactions.Perm
      ((sortTransactions (order.visit pool.transactions)).drop maxCount) := by
  have parts := List.take_append_drop maxCount (sortTransactions (order.visit pool.transactions))
  have sorted := sorted_perm order pool
  have hashes : ((sortTransactions (order.visit pool.transactions)).map Transaction.hash).Nodup :=
    (sorted.map _).nodup_iff.mpr filed.hashes_nodup
  rw [← parts,List.map_append] at hashes
  obtain ⟨-,later,apart⟩ := List.nodup_append.mp hashes
  rw [List.perm_ext_iff_of_nodup (filed.removeMined block).hashes_nodup.of_map later.of_map]
  intro tx
  have listed : tx ∈ pool.transactions ↔ tx ∈ block.transactions ∨
      tx ∈ (sortTransactions (order.visit pool.transactions)).drop maxCount := by
    rw [← sorted.mem_iff,chosen,getTransactionsForBlock,← List.mem_append,parts]
  have held : tx ∈ (pool.removeMinedTransactions block).transactions ↔
      tx.hash ∉ block.transactions.map Transaction.hash ∧ tx ∈ pool.transactions := by
    rw [(filed.removeMined block).mem,filed.mem,lookup_removeMined]
    by_cases mined : tx.hash ∈ block.transactions.map Transaction.hash
    · simp [mined]
    · rw [if_neg mined,and_iff_right mined]
  rw [held,listed]
  constructor
  · rintro ⟨absent,inside | inside⟩
    · exact absurd (List.mem_map_of_mem inside) absent
    · exact inside
  · intro inside
    refine ⟨fun mined => ?_,.inr inside⟩
    rw [chosen] at mined
    exact apart _ mined _ (List.mem_map_of_mem inside) rfl

/-- After the block each account covers what is left of its sender's transactions. -/
theorem Covered.removeMined (filed : Filed ext pool) (order : IterationOrder) {maxCount : Nat}
    {block : Block} (chosen : block.transactions = pool.getTransactionsForBlock order maxCount)
    {after : StateManager} {address : Address} (covered : Covered state pool address)
    (settled : Spends state.accounts after.accounts address (sentBy address block.transactions)) :
    Covered after (pool.removeMinedTransactions block) address := by
  have affords := covered.affords order
  rw [← List.take_append_drop maxCount (sortTransactions (order.visit pool.transactions)),
    StateManager.sentBy_append] at affords
  rw [chosen] at settled
  have left : Affords after.accounts address
      (sentBy address ((sortTransactions (order.visit pool.transactions)).drop maxCount)) :=
    affords.rest settled
  have pending : (pool.removeMinedTransactions block).pendingOf address =
      (sentBy address ((sortTransactions (order.visit pool.transactions)).drop maxCount) : List Transaction) := by
    rw [pendingOf,Multiset.filter_coe]
    exact Multiset.coe_eq_coe.mpr ((removeMined_perm filed order chosen).filter _)
  constructor
  · rw [pending,Multiset.map_coe,Multiset.coe_card,left.isRun.keys,StateManager.getNonce_eq]
  · rw [pending,amountSum,Multiset.map_coe,Multiset.sum_coe,StateManager.getBalance_eq]
    exact left.isRun.covered
  · rw [pending]
    intro some_left
    exact Finmap.lookup_isSome.mpr
      (left.account fun none_left => some_left (Multiset.coe_eq_zero _ |>.mpr none_left))

/-- A selection has the size it should have, its block applies, and afterwards the rebuild keeps
exactly the pending transactions that were not chosen. -/
theorem selection_applicable {ext : Externals} (state : StateManager)
    (fits : supply state.accounts < 2 ^ 64) (stages : List Stage)
    (nonces : NoncesFit (performs ext state (stages.flatMap Stage.calls)).2.transactions)
    (order order' : IterationOrder) (maxCount : Nat) (block : Block)
    (chosen : block.transactions = (performs ext state (stages.flatMap Stage.calls)).2.getTransactionsForBlock
      order maxCount) :
    let now := performs ext state (stages.flatMap Stage.calls)
    let after := (now.2.removeMinedTransactions block).revalidate ext order' (now.1.applyBlock block).2
    block.transactions.length = min maxCount now.2.size ∧
    (now.1.applyBlock block).1 = true ∧
    after.1 = 0 ∧
    ((after.2.transactions : Multiset Transaction) = now.2.transactions - block.transactions ∧
      (block.transactions : Multiset Transaction) ≤ now.2.transactions) ∧
    ∀ hash, after.2.pending.lookup hash =
      if hash ∈ block.transactions.map Transaction.hash then none else now.2.pending.lookup hash := by
  intro now after
  have consistent : Consistent ext now.1 now.2 := stages_consistent state stages
  have filed : Filed ext now.2 := consistent.verified
  have covered := consistent.covered nonces
  have sorted := sorted_perm order now.2
  have parts := List.take_append_drop maxCount (sortTransactions (order.visit now.2.transactions))
  have whole : ((now.2.transactions : List Transaction) : Multiset Transaction) = block.transactions +
      ((sortTransactions (order.visit now.2.transactions)).drop maxCount : List Transaction) := by
    rw [chosen,Multiset.coe_add,getTransactionsForBlock,parts]
    exact Multiset.coe_eq_coe.mpr sorted.symm
  have fits' : supply now.1.accounts < 2 ^ 64 := by
    rw [supply_performs state _ fits]
    exact fits
  obtain ⟨final,pays,settled⟩ := consistent.pays_selection nonces fits' order maxCount
  rw [← chosen] at pays settled
  have applied := StateManager.applyBlock_pays pays
  rw [← applied.2] at settled
  have filed' := filed.removeMined block
  have nonces' : NoncesFit (now.2.removeMinedTransactions block).transactions := fun tx member =>
    nonces tx (mem_removeMined member)
  obtain ⟨nothing,each,lookups⟩ := revalidate_keeps filed' nonces'
    (fun address => (covered address).removeMined filed order chosen (settled address)) order'
  have left : (after.2.transactions : Multiset Transaction) =
      (now.2.removeMinedTransactions block).transactions := transactions_eq each
  refine ⟨?_,applied.1,nothing,⟨?_,?_⟩,fun hash => ?_⟩
  · rw [chosen,getTransactionsForBlock,List.length_take,sorted.length_eq]
    rfl
  · rw [left,whole,add_tsub_cancel_left,Multiset.coe_eq_coe]
    exact removeMined_perm filed order chosen
  · rw [whole]
    exact Multiset.le_add_right _ _
  · rw [lookups,lookup_removeMined]

end selection

open Reference in
/-- Of two pending payments the first is chosen and confirmed; the second stays. -/
theorem selection_applicable_one :
    let state := StateManager.create ((∅ : AddressMap UInt64).insert validatorAddress 10)
    let stages := [Stage.addTransaction payment,.addTransaction secondPayment]
    let now := performs libraries state (stages.flatMap Stage.calls)
    let after := (now.2.removeMinedTransactions paying).revalidate libraries stored
      (now.1.applyBlock paying).2
    paying.transactions = now.2.getTransactionsForBlock stored 1 ∧
      (now.1.applyBlock paying).1 = true ∧ after.1 = 0 ∧ after.2.transactions = [secondPayment] := by
  intro state stages now after
  have chosen : paying.transactions = now.2.getTransactionsForBlock stored 1 := by decide +kernel
  obtain ⟨-,applied,nothing,⟨left,-⟩,-⟩ := selection_applicable state (by decide +kernel)
    stages (by decide +kernel) stored stored 1 paying chosen
  have rest : (now.2.transactions : Multiset Transaction) - paying.transactions = {secondPayment} := by
    decide +kernel
  rw [rest] at left
  exact ⟨chosen,applied,nothing,Multiset.coe_eq_singleton.mp left⟩

end Mempool
end TitanCore
