import TitanCore.State

/-! Conservation of ODM: a transfer moves an amount between two accounts, modulo 2^64 in
general and exactly while the supply fits in 64 bits. -/
namespace TitanCore.StateManager

def supply (accounts : Accounts) : Nat := FiniteMap.total (fun account => account.balance.toNat) accounts

def allocated (genesisAllocations : AddressMap UInt64) : Nat :=
  FiniteMap.total UInt64.toNat genesisAllocations

def balanceOf (accounts : Accounts) (address : Address) : UInt64 :=
  (accounts.lookup address).elim 0 AccountState.balance

/-- A run of `applyBlock` calls, whatever each of them returns. -/
def applyBlocks (state : StateManager) (blocks : List Block) : StateManager :=
  blocks.foldl (fun state block => (state.applyBlock block).2) state

/-- Applying the list from `accounts` executes the transfer of `tx` on `before`, also when a
later transaction makes the block fail. -/
inductive Executes : Accounts → List Transaction → Accounts → AccountState → Transaction → Prop
  | here {accounts : Accounts} {tx : Transaction} {rest : List Transaction}
      {account : AccountState} (payable : Payable accounts tx account) :
      Executes accounts (tx :: rest) accounts account tx
  | later {accounts before : Accounts} {tx executed : Transaction} {rest : List Transaction}
      {account sender : AccountState} (payable : Payable accounts tx account)
      (inRest : Executes (transfer accounts account tx) rest before sender executed) :
      Executes accounts (tx :: rest) before sender executed

/-- That is the loop of `applyBlock`: it gets through what is before the transaction, and then the
sender passes the check. -/
theorem executes_iff (i : Nat) (missing insufficient wrong : Bytes) {accounts before : Accounts}
    {transactions : List Transaction} {account : AccountState} {tx : Transaction} :
    Executes accounts transactions before account tx ↔ ∃ earlier rest, transactions = earlier ++ tx :: rest ∧
      applyTransactions i accounts earlier = .ok before ∧
      checkSender before tx missing insufficient wrong = .ok account := by
  constructor
  · intro executed
    induction executed with
    | here payable => exact ⟨[],_,rfl,rfl,(checkSender_ok ..).mpr payable⟩
    | later payable _ ih =>
      obtain ⟨earlier,rest,rfl,ran,passed⟩ := ih
      exact ⟨_ :: earlier,rest,rfl,(applyTransactions_iff ..).mpr (.cons payable ((applyTransactions_iff i ..).mp ran)),
        passed⟩
  · rintro ⟨earlier,rest,rfl,ran,passed⟩
    have pays := (applyTransactions_iff ..).mp ran
    clear ran
    induction pays with
    | nil => exact .here ((checkSender_ok ..).mp passed)
    | cons payable _ ih => exact .later payable (ih passed)

/-- The account a transfer credits, after the debit. -/
def credited (accounts : Accounts) (account : AccountState) (tx : Transaction) : AccountState :=
  ((accounts.insert tx.sender ⟨account.balance - tx.amount,account.nonce + 1⟩).lookup
    tx.recipient).getD default

theorem supply_create (genesisAllocations : AddressMap UInt64) :
    supply (create genesisAllocations).accounts = allocated genesisAllocations := by
  exact FiniteMap.total_mapValues _ _ genesisAllocations

theorem debit_exact {accounts : Accounts} {tx : Transaction} {account : AccountState}
    (payable : Payable accounts tx account) :
    (account.balance - tx.amount).toNat + tx.amount.toNat = account.balance.toNat := by
  have funded := UInt64.le_iff_toNat_le.mp payable.funded
  rw [UInt64.toNat_sub_of_le _ _ payable.funded]
  omega

theorem supply_debit {accounts : Accounts} {tx : Transaction} {account : AccountState}
    (payable : Payable accounts tx account) :
    supply (accounts.insert tx.sender ⟨account.balance - tx.amount,account.nonce + 1⟩) +
      tx.amount.toNat = supply accounts := by
  have change := FiniteMap.total_insert (fun a : AccountState => a.balance.toNat) accounts
    tx.sender ⟨account.balance - tx.amount,account.nonce + 1⟩
  have exact := debit_exact payable
  simp only [payable.held,Option.elim_some] at change
  simp only [supply]
  omega

/-- The balance a credit replaces is part of what the debit left. -/
theorem supply_credit (debited : Accounts) (recipient : Address) (amount : UInt64) :
    let old := (debited.lookup recipient).getD default
    supply (debited.insert recipient { old with balance := old.balance + amount }) +
      old.balance.toNat = supply debited + (old.balance + amount).toNat ∧
    old.balance.toNat ≤ supply debited := by
  intro old
  have change := FiniteMap.total_insert (fun a : AccountState => a.balance.toNat) debited
    recipient { old with balance := old.balance + amount }
  cases held : debited.lookup recipient with
  | none =>
    have fresh : old = default := by simp only [old,held,Option.getD_none]
    have zero : old.balance.toNat = 0 := by rw [fresh]; rfl
    simp only [held,Option.elim_none] at change
    simp only [supply]
    omega
  | some found =>
    have same : old = found := by simp only [old,held,Option.getD_some]
    have part := FiniteMap.weight_le_total (fun a : AccountState => a.balance.toNat) held
    simp only [held,Option.elim_some,← same] at change part
    exact ⟨change,part⟩

theorem supply_transfer {accounts : Accounts} {tx : Transaction} {account : AccountState}
    (payable : Payable accounts tx account) :
    supply (transfer accounts account tx) % 2 ^ 64 = supply accounts % 2 ^ 64 := by
  have debit := supply_debit payable
  obtain ⟨credit,part⟩ := supply_credit
    (accounts.insert tx.sender ⟨account.balance - tx.amount,account.nonce + 1⟩) tx.recipient tx.amount
  simp only [transfer] at credit part ⊢
  rw [UInt64.toNat_add] at credit
  omega

/-- Below 2^64 the credit does not wrap, so nothing is created or destroyed. -/
theorem supply_transfer_exact {accounts : Accounts} {tx : Transaction} {account : AccountState}
    (payable : Payable accounts tx account) (fits : supply accounts < 2 ^ 64) :
    supply (transfer accounts account tx) = supply accounts ∧
    ((credited accounts account tx).balance + tx.amount).toNat =
      (credited accounts account tx).balance.toNat + tx.amount.toNat := by
  have debit := supply_debit payable
  obtain ⟨credit,part⟩ := supply_credit
    (accounts.insert tx.sender ⟨account.balance - tx.amount,account.nonce + 1⟩) tx.recipient tx.amount
  simp only [transfer,credited] at credit part ⊢
  rw [UInt64.toNat_add] at credit ⊢
  omega

theorem balanceOf_recipient (accounts : Accounts) (account : AccountState) (tx : Transaction) :
    balanceOf (transfer accounts account tx) tx.recipient =
      (credited accounts account tx).balance + tx.amount := by
  rw [balanceOf,transfer,Finmap.lookup_insert]
  rfl

theorem credited_other {accounts : Accounts} {account : AccountState} {tx : Transaction}
    (other : tx.recipient ≠ tx.sender) :
    (credited accounts account tx).balance = balanceOf accounts tx.recipient := by
  rw [credited,balanceOf,Finmap.lookup_insert_of_ne _ other]
  cases accounts.lookup tx.recipient <;> rfl

theorem balanceOf_sender {accounts : Accounts} (account : AccountState) {tx : Transaction}
    (other : tx.recipient ≠ tx.sender) :
    balanceOf (transfer accounts account tx) tx.sender = account.balance - tx.amount := by
  rw [balanceOf,transfer,Finmap.lookup_insert_of_ne _ other.symm,Finmap.lookup_insert]
  rfl

theorem balanceOf_third {accounts : Accounts} (account : AccountState) {tx : Transaction}
    {address : Address} (apart : address ≠ tx.sender) (away : address ≠ tx.recipient) :
    balanceOf (transfer accounts account tx) address = balanceOf accounts address := by
  rw [balanceOf,transfer,Finmap.lookup_insert_of_ne _ away,Finmap.lookup_insert_of_ne _ apart]
  rfl

/-- Below 2^64 a transfer moves its amount from the sender to the recipient, and nothing else;
to oneself it moves nothing. -/
theorem balanceOf_transfer_exact {accounts : Accounts} {tx : Transaction} {account : AccountState}
    (payable : Payable accounts tx account) (fits : supply accounts < 2 ^ 64) (address : Address) :
    (balanceOf (transfer accounts account tx) address).toNat +
        (if address = tx.sender then tx.amount.toNat else 0) =
      (balanceOf accounts address).toNat + if address = tx.recipient then tx.amount.toNat else 0 := by
  have debit := debit_exact payable
  have credit := (supply_transfer_exact payable fits).2
  have held : balanceOf accounts tx.sender = account.balance := by
    rw [balanceOf,payable.held]
    rfl
  by_cases paid : address = tx.recipient
  · subst paid
    rw [balanceOf_recipient,credit,if_pos rfl]
    by_cases self : tx.recipient = tx.sender
    · have debited : (credited accounts account tx).balance = account.balance - tx.amount := by
        rw [credited,self,Finmap.lookup_insert]
        rfl
      rw [debited,if_pos self,self,held]
      omega
    · rw [credited_other self,if_neg self]
      exact Nat.add_zero _
  · rw [if_neg paid]
    by_cases self : address = tx.sender
    · subst self
      rw [balanceOf_sender account (Ne.symm paid),if_pos rfl,held]
      exact debit
    · rw [balanceOf_third account self paid,if_neg self]

theorem supply_pays {accounts final : Accounts} {transactions : List Transaction}
    (pays : Pays accounts transactions final) :
    supply final % 2 ^ 64 = supply accounts % 2 ^ 64 := by
  induction pays with
  | nil => rfl
  | cons payable _ ih => rw [ih,supply_transfer payable]

theorem supply_pays_exact {accounts final : Accounts} {transactions : List Transaction}
    (pays : Pays accounts transactions final) (fits : supply accounts < 2 ^ 64) :
    supply final = supply accounts := by
  induction pays with
  | nil => rfl
  | cons payable _ ih =>
    have step := (supply_transfer_exact payable fits).1
    rw [ih (by rw [step]; exact fits),step]

theorem supply_applyBlock (state : StateManager) (block : Block) :
    supply (state.applyBlock block).2.accounts % 2 ^ 64 = supply state.accounts % 2 ^ 64 := by
  rcases applyBlock_cases state block with ⟨-,pays⟩ | ⟨-,same,-⟩
  · exact supply_pays pays
  · rw [same]

theorem supply_applyBlock_exact (state : StateManager) (block : Block)
    (fits : supply state.accounts < 2 ^ 64) :
    supply (state.applyBlock block).2.accounts = supply state.accounts := by
  rcases applyBlock_cases state block with ⟨-,pays⟩ | ⟨-,same,-⟩
  · exact supply_pays_exact pays fits
  · rw [same]

theorem supply_applyBlocks (state : StateManager) (blocks : List Block) :
    supply (state.applyBlocks blocks).accounts % 2 ^ 64 = supply state.accounts % 2 ^ 64 := by
  induction blocks generalizing state with
  | nil => rfl
  | cons block rest ih =>
    calc supply (applyBlocks (state.applyBlock block).2 rest).accounts % 2 ^ 64
        = supply (state.applyBlock block).2.accounts % 2 ^ 64 := ih _
      _ = supply state.accounts % 2 ^ 64 := supply_applyBlock state block

theorem supply_applyBlocks_exact (state : StateManager) (blocks : List Block)
    (fits : supply state.accounts < 2 ^ 64) :
    supply (state.applyBlocks blocks).accounts = supply state.accounts := by
  induction blocks generalizing state with
  | nil => rfl
  | cons block rest ih =>
    have step := supply_applyBlock_exact state block fits
    calc supply (applyBlocks (state.applyBlock block).2 rest).accounts
        = supply (state.applyBlock block).2.accounts := ih _ (by rw [step]; exact fits)
      _ = supply state.accounts := step

/-- A transfer moves its amount exactly: no debit underflows and no credit wraps. -/
theorem executes_exact {accounts before : Accounts} {transactions : List Transaction}
    {account : AccountState} {tx : Transaction} (fits : supply accounts < 2 ^ 64)
    (executed : Executes accounts transactions before account tx) :
    (account.balance - tx.amount).toNat + tx.amount.toNat = account.balance.toNat ∧
    ((credited before account tx).balance + tx.amount).toNat =
      (credited before account tx).balance.toNat + tx.amount.toNat := by
  induction executed with
  | here payable => exact ⟨debit_exact payable,(supply_transfer_exact payable fits).2⟩
  | later payable _ ih =>
    exact ih (by rw [(supply_transfer_exact payable fits).1]; exact fits)

/-- The supply after any run of blocks, and the exactness of every transfer that the loop over a
further block executes. -/
theorem odm_conserved (genesisAllocations : AddressMap UInt64) (blocks : List Block) :
    supply ((create genesisAllocations).applyBlocks blocks).accounts % 2 ^ 64 =
      allocated genesisAllocations % 2 ^ 64 ∧
    (allocated genesisAllocations < 2 ^ 64 →
      supply ((create genesisAllocations).applyBlocks blocks).accounts =
        allocated genesisAllocations ∧
      ∀ (block : Block) (before : Accounts) (account : AccountState) (tx : Transaction),
        Executes ((create genesisAllocations).applyBlocks blocks).accounts block.transactions
          before account tx →
        (account.balance - tx.amount).toNat + tx.amount.toNat = account.balance.toNat ∧
        ((credited before account tx).balance + tx.amount).toNat =
          (credited before account tx).balance.toNat + tx.amount.toNat) ∧
    ∀ (accounts before : Accounts) (transactions : List Transaction) (account : AccountState) (tx : Transaction)
      (i : Nat) (missing insufficient wrong : Bytes),
      Executes accounts transactions before account tx ↔ ∃ earlier rest, transactions = earlier ++ tx :: rest ∧
        applyTransactions i accounts earlier = .ok before ∧
        checkSender before tx missing insufficient wrong = .ok account := by
  refine ⟨by rw [supply_applyBlocks,supply_create],fun fits => ?_,
    fun _ _ _ _ _ i missing insufficient wrong => executes_iff i missing insufficient wrong⟩
  have total : supply ((create genesisAllocations).applyBlocks blocks).accounts =
      allocated genesisAllocations := by
    rw [supply_applyBlocks_exact _ _ (by rw [supply_create]; exact fits),supply_create]
  exact ⟨total,fun _ _ _ _ executed => executes_exact (by rw [total]; exact fits) executed⟩

/-- A transaction that spends three of ten allocated units. -/
theorem odm_conserved_spend :
    let sender : Address := ⟨List.replicate 20 1,rfl⟩
    let recipient : Address := ⟨List.replicate 20 2,rfl⟩
    let spend : Transaction := ⟨sender,recipient,3,0,0,⟨List.replicate 33 0,rfl⟩,[],zeroHash⟩
    let genesisAllocations : AddressMap UInt64 := (∅ : AddressMap UInt64).insert sender 10
    let state := create genesisAllocations
    let block : Block := ⟨1,0,zeroHash,sender,⟨List.replicate 33 0,rfl⟩,[spend],[],zeroHash⟩
    (supply (state.applyBlocks [block,block]).accounts = 10 ∧
      (state.applyBlocks [block,block]).getBalance recipient = 3) ∧
    ((credited state.accounts ⟨10,0⟩ spend).balance + 3).toNat =
      (credited state.accounts ⟨10,0⟩ spend).balance.toNat + 3 := by
  intro sender recipient spend genesisAllocations state block
  refine ⟨⟨?_,by decide +kernel⟩,?_⟩
  · exact ((odm_conserved genesisAllocations [block,block]).2.1 (by decide +kernel)).1
  · exact (((odm_conserved genesisAllocations []).2.1 (by decide +kernel)).2 block state.accounts
      ⟨10,0⟩ spend (.here ⟨by decide +kernel,by decide +kernel,rfl⟩)).2

end TitanCore.StateManager
