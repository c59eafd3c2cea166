import Mathlib.Data.List.Sort
import TitanCore.State

/-! The pool of pending transactions: three hash maps kept over the confirmed ledger. The map
that is iterated over keeps its entries as a list, which a loop visits in any order. -/
namespace TitanCore

abbrev PendingMap := AList fun _ : Hash => Transaction

structure Mempool where
  pending : PendingMap
  pendingNonces : AddressMap UInt64
  pendingBalances : AddressMap UInt64
  lastError : Bytes

/-- The order in which a loop visits a hash map's values: any rearrangement of them. -/
structure IterationOrder where
  visit : List Transaction → List Transaction
  complete : ∀ values, (visit values).Perm values

/-- The comparison of the two sorts: by sender, then by nonce. -/
def precedes (a b : Transaction) : Bool :=
  if a.sender ≠ b.sender then Bytes.less a.sender.val b.sender.val else decide (a.nonce < b.nonce)

/-- `std::sort`. It may leave equivalent elements in any order, which the order they come in
accounts for. -/
def sortTransactions (transactions : List Transaction) : List Transaction :=
  transactions.insertionSort fun a b => precedes b a = false

namespace Mempool

def empty : Mempool := ⟨∅,∅,∅,[]⟩

def transactions (pool : Mempool) : List Transaction := pool.pending.entries.map fun entry => entry.2

def size (pool : Mempool) : Nat := pool.transactions.length

def contains (pool : Mempool) (txHash : Hash) : Bool := (pool.pending.lookup txHash).isSome

def getPendingNonce (pool : Mempool) (state : StateManager) (address : Address) : UInt64 :=
  match pool.pendingNonces.lookup address with
  | some nonce => nonce
  | none => state.getNonce address

def getPendingBalance (pool : Mempool) (state : StateManager) (address : Address) : UInt64 :=
  match pool.pendingBalances.lookup address with
  | some balance => balance
  | none => state.getBalance address

def getTransactionsForBlock (order : IterationOrder) (pool : Mempool) (maxCount : Nat) :
    List Transaction :=
  (sortTransactions (order.visit pool.transactions)).take maxCount

def removeMinedTransactions (pool : Mempool) (block : Block) : Mempool :=
  { pool with pending := block.transactions.foldl (fun pending tx => pending.erase tx.hash) pool.pending }

section
variable (ext : Externals)

/-- The checks of `addTransaction`, in order; an error is the text it leaves behind. -/
def checkTransaction (pool : Mempool) (state : StateManager) (tx : Transaction) : Except Bytes Unit :=
  let expectedNonce := pool.getPendingNonce state tx.sender
  let availableBalance := pool.getPendingBalance state tx.sender
  if verifyTransaction ext tx = false then .error (str "Invalid transaction signature")
  else if pool.contains tx.hash then
    .error (str "Duplicate transaction: " ++ toHex tx.hash.val)
  else if state.accountExists tx.sender = false then
    .error (str "Sender account does not exist: " ++ toHex tx.sender.val)
  else if tx.nonce ≠ expectedNonce then
    .error (str "Wrong nonce: expected " ++ decimal expectedNonce.toNat ++ str ", got " ++
      decimal tx.nonce.toNat)
  else if availableBalance < tx.amount then
    .error (str "Insufficient pending balance: has " ++ decimal availableBalance.toNat ++
      str " ODM available, needs " ++ decimal tx.amount.toNat ++ str " ODM")
  else .ok ()

def addTransaction (pool : Mempool) (state : StateManager) (tx : Transaction) : Bool × Mempool :=
  match checkTransaction ext pool state tx with
  | .error text => (false,{ pool with lastError := text })
  | .ok () => (true,
    { pending := pool.pending.insert tx.hash tx
      pendingNonces := pool.pendingNonces.insert tx.sender (tx.nonce + 1)
      pendingBalances := pool.pendingBalances.insert tx.sender
        (pool.getPendingBalance state tx.sender - tx.amount)
      lastError := [] })

def addTransactions (pool : Mempool) (state : StateManager) (transactions : List Transaction) :
    Mempool :=
  transactions.foldl (fun pool tx => (pool.addTransaction ext state tx).2) pool

/-- Rebuild all three maps from the saved transactions; returns how many were evicted. -/
def revalidate (order : IterationOrder) (pool : Mempool) (state : StateManager) : Nat × Mempool :=
  let savedTxs := order.visit pool.transactions
  let rebuilt := addTransactions ext empty state (sortTransactions savedTxs)
  (savedTxs.length - rebuilt.size,rebuilt)

end

structure Admissible (ext : Externals) (pool : Mempool) (state : StateManager) (tx : Transaction) :
    Prop where
  verified : verifyTransaction ext tx = true
  fresh : pool.pending.lookup tx.hash = none
  account : state.accountExists tx.sender = true
  nonce : tx.nonce = pool.getPendingNonce state tx.sender
  funded : tx.amount ≤ pool.getPendingBalance state tx.sender

theorem checkTransaction_ok (ext : Externals) (pool : Mempool) (state : StateManager)
    (tx : Transaction) :
    checkTransaction ext pool state tx = .ok () ↔ Admissible ext pool state tx := by
  unfold checkTransaction
  constructor
  · intro passed
    dsimp only at passed
    split_ifs at passed with verified fresh account nonce funded
    exact ⟨by simpa using verified,by simpa [contains] using fresh,by simpa using account,
      not_not.mp nonce,UInt64.not_lt.mp funded⟩
  · intro ok
    simp [ok.verified,ok.account,ok.nonce,contains,ok.fresh,UInt64.not_lt.mpr ok.funded]

/-- A call adds the transaction exactly when it is admissible, and otherwise changes nothing
but the error text. -/
theorem addTransaction_cases (ext : Externals) (pool : Mempool) (state : StateManager)
    (tx : Transaction) :
    ((pool.addTransaction ext state tx).1 = true ∧ Admissible ext pool state tx ∧
      (pool.addTransaction ext state tx).2 =
        ⟨pool.pending.insert tx.hash tx,pool.pendingNonces.insert tx.sender (tx.nonce + 1),
          pool.pendingBalances.insert tx.sender (pool.getPendingBalance state tx.sender - tx.amount),
          []⟩) ∨
    ((pool.addTransaction ext state tx).1 = false ∧ ¬ Admissible ext pool state tx ∧
      ∃ text, (pool.addTransaction ext state tx).2 = { pool with lastError := text }) := by
  have checked := checkTransaction_ok ext pool state tx
  unfold addTransaction
  cases check : checkTransaction ext pool state tx with
  | error text =>
    refine .inr ⟨rfl,fun ok => ?_,text,rfl⟩
    rw [checked.mpr ok] at check
    cases check
  | ok _ => exact .inl ⟨rfl,checked.mp check,rfl⟩

theorem addTransaction_verified {ext : Externals} {pool : Mempool} {state : StateManager}
    {tx : Transaction} (added : (pool.addTransaction ext state tx).1 = true) :
    verifyTransaction ext tx = true := by
  rcases addTransaction_cases ext pool state tx with ⟨-,admissible,-⟩ | ⟨refused,-⟩
  · exact admissible.verified
  · rw [added] at refused
    cases refused

theorem sortTransactions_perm (transactions : List Transaction) :
    (sortTransactions transactions).Perm transactions :=
  List.perm_insertionSort _ transactions

theorem mem_transactions {pool : Mempool} {tx : Transaction} :
    tx ∈ pool.transactions ↔ ∃ hash, pool.pending.lookup hash = some tx := by
  simp only [transactions,List.mem_map]
  constructor
  · rintro ⟨⟨hash,_⟩,member,rfl⟩
    exact ⟨hash,AList.mem_lookup_iff.mpr member⟩
  · rintro ⟨hash,held⟩
    exact ⟨⟨hash,tx⟩,AList.mem_lookup_iff.mp held,rfl⟩

theorem mem_getTransactionsForBlock {order : IterationOrder} {pool : Mempool} {maxCount : Nat}
    {tx : Transaction} (chosen : tx ∈ pool.getTransactionsForBlock order maxCount) :
    tx ∈ pool.transactions := by
  have member := List.mem_of_mem_take chosen
  rwa [(sortTransactions_perm _).mem_iff,(order.complete _).mem_iff] at member

theorem getTransactionsForBlock_length (order : IterationOrder) (pool : Mempool) (maxCount : Nat) :
    (pool.getTransactionsForBlock order maxCount).length ≤ maxCount := by
  simp [getTransactionsForBlock,List.length_take]

end Mempool
end TitanCore
