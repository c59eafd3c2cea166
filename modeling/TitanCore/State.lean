import TitanCore.Block
import TitanCore.FiniteMap

/-! The confirmed ledger. A block is applied to a copy of the account map, which replaces the
map only when every transaction passed. -/
namespace TitanCore

abbrev AddressMap (V : Type) := FiniteMap.Map Address V

structure AccountState where
  balance : UInt64
  nonce : UInt64
  deriving DecidableEq

/-- What `operator[]` creates for an absent key. -/
instance : Inhabited AccountState := ⟨⟨0,0⟩⟩

abbrev Accounts := AddressMap AccountState

structure StateManager where
  accounts : Accounts
  lastError : Bytes

namespace StateManager

def create (genesisAllocations : AddressMap UInt64) : StateManager :=
  ⟨FiniteMap.mapValues (fun balance => ⟨balance,0⟩) genesisAllocations,[]⟩

def getBalance (state : StateManager) (address : Address) : UInt64 :=
  match state.accounts.lookup address with
  | none => 0
  | some account => account.balance

def getNonce (state : StateManager) (address : Address) : UInt64 :=
  match state.accounts.lookup address with
  | none => 0
  | some account => account.nonce

def accountExists (state : StateManager) (address : Address) : Bool :=
  (state.accounts.lookup address).isSome

/-- The sender's three checks, an error being the text both callers report. -/
def checkSender (accounts : Accounts) (tx : Transaction) (missing insufficient wrong : Bytes) :
    Except Bytes AccountState :=
  match accounts.lookup tx.sender with
  | none => .error (missing ++ toHex tx.sender.val)
  | some account =>
    if account.balance < tx.amount then
      .error (insufficient ++ decimal account.balance.toNat ++ str " ODM, needs " ++
        decimal tx.amount.toNat ++ str " ODM")
    else if tx.nonce ≠ account.nonce then
      .error (wrong ++ decimal account.nonce.toNat ++ str ", got " ++ decimal tx.nonce.toNat)
    else .ok account

def validateTransaction (state : StateManager) (tx : Transaction) : Bool × StateManager :=
  match checkSender state.accounts tx (str "Sender account does not exist: ")
      (str "Insufficient balance: has ") (str "Wrong nonce: expected ") with
  | .error text => (false,{ state with lastError := text })
  | .ok _ => (true,{ state with lastError := [] })

/-- Debit the sender, then credit the recipient, who may be the sender or new. -/
def transfer (newState : Accounts) (senderAccount : AccountState) (tx : Transaction) : Accounts :=
  let newState := newState.insert tx.sender
    ⟨senderAccount.balance - tx.amount,senderAccount.nonce + 1⟩
  let recipient := (newState.lookup tx.recipient).getD default
  newState.insert tx.recipient { recipient with balance := recipient.balance + tx.amount }

/-- The loop of `applyBlock` from transaction number `i`. -/
def applyTransactions (i : Nat) (newState : Accounts) : List Transaction → Except Bytes Accounts
  | [] => .ok newState
  | tx :: rest => do
    let label := str "Tx " ++ decimal i
    let senderAccount ← checkSender newState tx (label ++ str ": sender does not exist: ")
      (label ++ str ": insufficient balance: has ") (label ++ str ": wrong nonce: expected ")
    applyTransactions (i + 1) (transfer newState senderAccount tx) rest

def applyBlock (state : StateManager) (block : Block) : Bool × StateManager :=
  match applyTransactions 0 state.accounts block.transactions with
  | .error text => (false,{ state with lastError := text })
  | .ok newState => (true,⟨newState,[]⟩)

/-- What an admissible transfer needs of its sender. -/
structure Payable (accounts : Accounts) (tx : Transaction) (account : AccountState) : Prop where
  held : accounts.lookup tx.sender = some account
  funded : tx.amount ≤ account.balance
  ordered : tx.nonce = account.nonce

theorem checkSender_ok (accounts : Accounts) (tx : Transaction) (missing insufficient wrong : Bytes)
    (account : AccountState) :
    checkSender accounts tx missing insufficient wrong = .ok account ↔
      Payable accounts tx account := by
  unfold checkSender
  constructor
  · intro passed
    split at passed
    · cases passed
    · next found held =>
      split_ifs at passed with short order
      cases passed
      exact ⟨held,UInt64.not_lt.mp short,not_not.mp order⟩
  · intro payable
    rw [payable.held]
    simp [UInt64.not_lt.mpr payable.funded,payable.ordered]

/-- `validateTransaction` says whether the sender can pay, and changes only the error text. -/
theorem validateTransaction_iff (state : StateManager) (tx : Transaction) :
    (state.validateTransaction tx).1 = true ↔ ∃ account, Payable state.accounts tx account := by
  unfold validateTransaction
  split
  · next text failed =>
    simp only [Bool.false_eq_true,false_iff,not_exists]
    intro account payable
    rw [(checkSender_ok ..).mpr payable] at failed
    cases failed
  · next account passed => simpa using ⟨account,(checkSender_ok ..).mp passed⟩

theorem lookup_of_accountExists {state : StateManager} {address : Address}
    (present : state.accountExists address = true) :
    state.accounts.lookup address = some ⟨state.getBalance address,state.getNonce address⟩ := by
  unfold accountExists at present
  unfold getBalance getNonce
  cases held : state.accounts.lookup address with
  | none => rw [held] at present; cases present
  | some account => rfl

/-- Transfers as a relation: the block's transactions paid one after the other. -/
inductive Pays : Accounts → List Transaction → Accounts → Prop
  | nil (accounts : Accounts) : Pays accounts [] accounts
  | cons {accounts final : Accounts} {tx : Transaction} {rest : List Transaction}
      {account : AccountState} (payable : Payable accounts tx account)
      (later : Pays (transfer accounts account tx) rest final) : Pays accounts (tx :: rest) final

theorem applyTransactions_iff (i : Nat) (accounts final : Accounts)
    (transactions : List Transaction) :
    applyTransactions i accounts transactions = .ok final ↔ Pays accounts transactions final := by
  induction transactions generalizing i accounts with
  | nil =>
    simp only [applyTransactions,Except.ok.injEq]
    constructor
    · rintro rfl; exact .nil _
    · intro pays; cases pays; rfl
  | cons tx rest ih =>
    simp only [applyTransactions]
    constructor
    · intro done
      cases check : checkSender accounts tx (str "Tx " ++ decimal i ++ str ": sender does not exist: ")
          (str "Tx " ++ decimal i ++ str ": insufficient balance: has ")
          (str "Tx " ++ decimal i ++ str ": wrong nonce: expected ") with
      | error text => rw [check] at done; cases done
      | ok account =>
        rw [check,ok_bind,ih] at done
        exact .cons ((checkSender_ok ..).mp check) done
    · intro pays
      cases pays with
      | cons payable later =>
        rw [(checkSender_ok ..).mpr payable,ok_bind,ih]
        exact later

/-- The ledger after a block: its transfers when all of them pass, else unchanged. -/
theorem applyBlock_cases (state : StateManager) (block : Block) :
    ((state.applyBlock block).1 = true ∧
      Pays state.accounts block.transactions (state.applyBlock block).2.accounts) ∨
    ((state.applyBlock block).1 = false ∧ (state.applyBlock block).2.accounts = state.accounts ∧
      ∀ final, ¬ Pays state.accounts block.transactions final) := by
  unfold applyBlock
  cases applied : applyTransactions 0 state.accounts block.transactions with
  | ok final => exact .inl ⟨rfl,(applyTransactions_iff ..).mp applied⟩
  | error text =>
    refine .inr ⟨rfl,rfl,fun final pays => ?_⟩
    rw [(applyTransactions_iff ..).mpr pays] at applied
    cases applied

theorem Pays.deterministic {accounts a b : Accounts} {transactions : List Transaction}
    (first : Pays accounts transactions a) (second : Pays accounts transactions b) : a = b := by
  have same := (applyTransactions_iff 0 ..).mpr first
  rw [(applyTransactions_iff 0 ..).mpr second] at same
  exact (Except.ok.inj same).symm

end StateManager
end TitanCore
