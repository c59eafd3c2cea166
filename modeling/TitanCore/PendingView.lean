import TitanCore.BlockSelection

/-! The pending nonces and balances beside the ledger in which everything pending was processed.
They leave out, by design, what an address is paid by pending transactions. -/
namespace TitanCore
open Mempool (amountValue NoncesFit)

namespace StateManager

def receivedBy (address : Address) (transactions : List Transaction) : List Transaction :=
  transactions.filter fun tx => tx.recipient = address

/-- The amounts of a list are those of its first transaction and those of the rest. -/
theorem amounts_cons (select : Transaction → Prop) [DecidablePred select] (tx : Transaction)
    (rest : List Transaction) : (((tx :: rest).filter (select ·)).map amountValue).sum =
      (if select tx then tx.amount.toNat else 0) + ((rest.filter (select ·)).map amountValue).sum := by
  by_cases selected : select tx
  · rw [List.filter_cons_of_pos (by simpa using selected),if_pos selected,List.map_cons,List.sum_cons]
    rfl
  · rw [List.filter_cons_of_neg (by simpa using selected),if_neg selected,Nat.zero_add]

/-- Below 2^64 an account ends with what it had, less what it sent, plus what it received. -/
theorem Pays.balance {accounts final : Accounts} {transactions : List Transaction}
    (pays : Pays accounts transactions final) (fits : supply accounts < 2 ^ 64) (address : Address) :
    (balanceOf final address).toNat + ((sentBy address transactions).map amountValue).sum =
      (balanceOf accounts address).toNat + ((receivedBy address transactions).map amountValue).sum := by
  induction pays with
  | nil => rfl
  | @cons _ _ tx rest _ payable _ ih =>
    have moved := balanceOf_transfer_exact payable fits address
    have later := ih (by rw [(supply_transfer_exact payable fits).1]; exact fits)
    have sent := amounts_cons (fun tx => tx.sender = address) tx rest
    have received := amounts_cons (fun tx => tx.recipient = address) tx rest
    simp only [eq_comm (a := address)] at moved
    simp only [sentBy,receivedBy] at later ⊢
    omega

end StateManager

namespace Mempool
open StateManager (sentBy receivedBy nonceOf balanceOf supply)

section view
variable {ext : Externals} {state : StateManager} {pool : Mempool}

theorem getTransactionsForBlock_size (order : IterationOrder) (pool : Mempool) :
    pool.getTransactionsForBlock order pool.size = sortTransactions (order.visit pool.transactions) := by
  refine List.take_of_length_le ?_
  rw [(sorted_perm order pool).length_eq]
  exact Nat.le_refl _

theorem sentBy_whole (order : IterationOrder) (address : Address) :
    ((sentBy address (pool.getTransactionsForBlock order pool.size) : List Transaction) :
      Multiset Transaction) = pool.pendingOf address := by
  rw [getTransactionsForBlock_size,sentBy_sorted_perm]

theorem Consistent.nonce_settled (consistent : Consistent ext state pool) (order : IterationOrder)
    {final : Accounts} {address : Address}
    (settled : StateManager.Spends state.accounts final address
      (sentBy address (pool.getTransactionsForBlock order pool.size))) :
    pool.getPendingNonce state address = nonceOf final address := by
  have count : (sentBy address (pool.getTransactionsForBlock order pool.size)).length =
      (pool.pendingOf address).card := by
    rw [← sentBy_whole order address,Multiset.coe_card]
  have nonce := settled.nonce
  have small := (nonceOf final address).toNat_lt
  rw [count,← StateManager.getNonce_eq] at nonce
  refine UInt64.toNat.inj ?_
  rw [consistent.nextNonce,UInt64.toNat_add,UInt64.toNat_ofNat',Nat.add_mod_mod,← nonce]
  exact Nat.mod_eq_of_lt small

/-- The balance after everything pending is the pending one and what pending transactions pay. -/
theorem Consistent.balance_settled (consistent : Consistent ext state pool) (order : IterationOrder)
    (fits : supply state.accounts < 2 ^ 64) {final : Accounts}
    (pays : StateManager.Pays state.accounts (pool.getTransactionsForBlock order pool.size) final)
    (address : Address) : (balanceOf final address).toNat =
      (pool.getPendingBalance state address).toNat +
        ((receivedBy address pool.transactions).map amountValue).sum := by
  have balance := consistent.balance address
  have moved := pays.balance fits address
  have sent : ((sentBy address (pool.getTransactionsForBlock order pool.size)).map amountValue).sum =
      amountSum (pool.pendingOf address) := by
    rw [amountSum,← sentBy_whole order,Multiset.map_coe,Multiset.sum_coe]
    rfl
  have received : ((receivedBy address (pool.getTransactionsForBlock order pool.size)).map amountValue).sum =
      ((receivedBy address pool.transactions).map amountValue).sum := by
    rw [getTransactionsForBlock_size]
    exact (((sorted_perm order pool).filter _).map _).sum_eq
  rw [StateManager.getBalance_eq] at balance
  omega

end view

/-- The pending nonce of every address is the one after all pending transactions, and the balance
after them is the pending balance and what they pay to the address. -/
theorem pending_simulated {ext : Externals} (state : StateManager)
    (fits : supply state.accounts < 2 ^ 64) (stages : List Stage)
    (nonces : NoncesFit (performs ext state (stages.flatMap Stage.calls)).2.transactions)
    (order : IterationOrder) (block : Block)
    (chosen : block.transactions = (performs ext state (stages.flatMap Stage.calls)).2.getTransactionsForBlock
      order (performs ext state (stages.flatMap Stage.calls)).2.size) :
    let now := performs ext state (stages.flatMap Stage.calls)
    let simulated := now.1.applyBlock block
    let paid (address : Address) := ((receivedBy address now.2.transactions).map amountValue).sum
    simulated.1 = true ∧ ∀ address,
      now.2.getPendingNonce now.1 address = simulated.2.getNonce address ∧
      (simulated.2.getBalance address).toNat = (now.2.getPendingBalance now.1 address).toNat + paid address ∧
      (now.2.getPendingBalance now.1 address = simulated.2.getBalance address ↔ paid address = 0) := by
  intro now simulated paid
  have consistent : Consistent ext now.1 now.2 := stages_consistent state stages
  have fits' : supply now.1.accounts < 2 ^ 64 := by
    rw [supply_performs state _ fits]
    exact fits
  obtain ⟨final,pays,settled⟩ := consistent.pays_selection nonces fits' order now.2.size
  obtain ⟨accepted,left⟩ := StateManager.applyBlock_pays (chosen ▸ pays)
  refine ⟨accepted,fun address => ?_⟩
  have balance := consistent.balance_settled order fits' pays address
  rw [← left,← StateManager.getBalance_eq] at balance
  refine ⟨?_,balance,?_⟩
  · rw [StateManager.getNonce_eq,left]
    exact consistent.nonce_settled order (settled address)
  · rw [← UInt64.toNat_inj,balance]
    exact Nat.left_eq_add

section payment
open Reference

/-- A payment to an address without an account is pending. -/
theorem pending_simulated_payment :
    let state := StateManager.create ((∅ : AddressMap UInt64).insert validatorAddress 10)
    let now := performs libraries state ([Stage.addTransaction payment].flatMap Stage.calls)
    let simulated := now.1.applyBlock paying
    simulated.1 = true ∧ now.2.getPendingNonce now.1 validatorAddress = 1 ∧
      simulated.2.getNonce validatorAddress = 1 ∧ (simulated.2.getBalance observerAddress).toNat =
        (now.2.getPendingBalance now.1 observerAddress).toNat + 3 := by
  intro state now simulated
  obtain ⟨accepted,views⟩ := @pending_simulated libraries state (by decide +kernel)
    [.addTransaction payment] (by decide +kernel) stored paying (by decide +kernel)
  have next : simulated.2.getNonce validatorAddress = 1 := by decide +kernel
  have paid : ((receivedBy observerAddress now.2.transactions).map amountValue).sum = 3 := by decide +kernel
  refine ⟨accepted,(views validatorAddress).1.trans next,next,?_⟩
  rw [← paid]
  exact (views observerAddress).2.1

/-- The pending balance of the one who is paid stays the confirmed one. -/
theorem pendingBalance_not_simulated :
    let state := StateManager.create ((∅ : AddressMap UInt64).insert validatorAddress 10)
    let now := performs libraries state ([Stage.addTransaction payment].flatMap Stage.calls)
    supply state.accounts < 2 ^ 64 ∧ NoncesFit now.2.transactions ∧
      paying.transactions = now.2.getTransactionsForBlock stored now.2.size ∧
      now.2.getPendingBalance now.1 observerAddress = 0 ∧
      (now.1.applyBlock paying).2.getBalance observerAddress = 3 := by
  decide +kernel

end payment
end Mempool
end TitanCore
