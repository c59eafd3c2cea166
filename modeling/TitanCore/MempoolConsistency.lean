import TitanCore.Mempool

/-! The pool's three maps agree with the ledger: the pending nonces of a sender continue its
confirmed nonce without gap or repetition, and the pending amounts are covered. Nonces are
counted modulo 2^64 here, as the code counts them. -/
namespace TitanCore.Mempool

def pendingOf (pool : Mempool) (address : Address) : Multiset Transaction :=
  (pool.transactions : Multiset Transaction).filter fun tx => tx.sender = address

def nonceRun (first : UInt64) (count : Nat) : Multiset UInt64 :=
  (Multiset.range count).map fun i => first + UInt64.ofNat i

def amountSum (transactions : Multiset Transaction) : Nat :=
  (transactions.map fun tx => tx.amount.toNat).sum

structure Consistent (ext : Externals) (state : StateManager) (pool : Mempool) : Prop where
  nonces : ∀ address, (pool.pendingOf address).map Transaction.nonce =
    nonceRun (state.getNonce address) (pool.pendingOf address).card
  nextNonce : ∀ address, pool.getPendingNonce state address =
    state.getNonce address + UInt64.ofNat (pool.pendingOf address).card
  balance : ∀ address, (pool.getPendingBalance state address).toNat +
    amountSum (pool.pendingOf address) = (state.getBalance address).toNat
  account : ∀ address, pool.pendingOf address ≠ 0 → state.accountExists address = true
  verified : ∀ hash tx, pool.pending.lookup hash = some tx →
    tx.hash = hash ∧ verifyTransaction ext tx = true

theorem nonceRun_succ (first : UInt64) (count : Nat) :
    nonceRun first (count + 1) = (first + UInt64.ofNat count) ::ₘ nonceRun first count := by
  simp [nonceRun,Multiset.range_succ]

theorem mem_pendingOf {pool : Mempool} {address : Address} {tx : Transaction} :
    tx ∈ pool.pendingOf address ↔
      (∃ hash, pool.pending.lookup hash = some tx) ∧ tx.sender = address := by
  simp only [pendingOf,Multiset.mem_filter,Multiset.mem_coe,mem_transactions]

@[simp] theorem pendingOf_empty (address : Address) : empty.pendingOf address = 0 := rfl

@[simp] theorem getPendingNonce_empty (state : StateManager) (address : Address) :
    empty.getPendingNonce state address = state.getNonce address := by
  simp [getPendingNonce,empty]

@[simp] theorem getPendingBalance_empty (state : StateManager) (address : Address) :
    empty.getPendingBalance state address = state.getBalance address := by
  simp [getPendingBalance,empty]

theorem empty_consistent (ext : Externals) (state : StateManager) : Consistent ext state empty := by
  refine ⟨fun _ => rfl,fun address => ?_,fun address => ?_,fun address some_pending => ?_,?_⟩
  · simp
  · simp [amountSum]
  · exact absurd (pendingOf_empty address) some_pending
  · intro hash tx held
    simp [empty] at held

theorem Consistent.error_irrelevant {ext : Externals} {state : StateManager} {pool : Mempool}
    (consistent : Consistent ext state pool) (text : Bytes) :
    Consistent ext state { pool with lastError := text } :=
  ⟨consistent.nonces,consistent.nextNonce,consistent.balance,consistent.account,consistent.verified⟩

section admission
variable {ext : Externals} {state : StateManager} {pool : Mempool} {tx : Transaction}

def admission (pool : Mempool) (state : StateManager) (tx : Transaction) : Mempool :=
  ⟨pool.pending.insert tx.hash tx,pool.pendingNonces.insert tx.sender (tx.nonce + 1),
    pool.pendingBalances.insert tx.sender (pool.getPendingBalance state tx.sender - tx.amount),[]⟩

theorem addTransaction_admission (admissible : Admissible ext pool state tx) :
    pool.addTransaction ext state tx = (true,pool.admission state tx) := by
  rcases addTransaction_cases ext pool state tx with ⟨yes,-,added⟩ | ⟨-,refused,-⟩
  · exact Prod.ext yes added
  · exact absurd admissible refused

theorem transactions_admission (fresh : pool.pending.lookup tx.hash = none) :
    (pool.admission state tx).transactions = tx :: pool.transactions := by
  simp only [transactions,admission,AList.entries_insert_of_notMem (AList.lookup_eq_none.mp fresh),
    List.map_cons]

theorem pendingOf_admission_self (fresh : pool.pending.lookup tx.hash = none) :
    (pool.admission state tx).pendingOf tx.sender = tx ::ₘ pool.pendingOf tx.sender := by
  rw [pendingOf,transactions_admission fresh,← Multiset.cons_coe]
  exact Multiset.filter_cons_of_pos (p := fun t : Transaction => t.sender = tx.sender) _ rfl

theorem pendingOf_admission_other (fresh : pool.pending.lookup tx.hash = none) {address : Address}
    (other : address ≠ tx.sender) :
    (pool.admission state tx).pendingOf address = pool.pendingOf address := by
  rw [pendingOf,transactions_admission fresh,← Multiset.cons_coe]
  exact Multiset.filter_cons_of_neg (p := fun t : Transaction => t.sender = address) _ (Ne.symm other)

theorem getPendingNonce_admission_other {address : Address} (other : address ≠ tx.sender) :
    (pool.admission state tx).getPendingNonce state address = pool.getPendingNonce state address := by
  simp [getPendingNonce,admission,Finmap.lookup_insert_of_ne _ other]

theorem getPendingBalance_admission_other {address : Address} (other : address ≠ tx.sender) :
    (pool.admission state tx).getPendingBalance state address =
      pool.getPendingBalance state address := by
  simp [getPendingBalance,admission,Finmap.lookup_insert_of_ne _ other]

@[simp] theorem getPendingNonce_admission_self :
    (pool.admission state tx).getPendingNonce state tx.sender = tx.nonce + 1 := by
  simp [getPendingNonce,admission]

@[simp] theorem getPendingBalance_admission_self :
    (pool.admission state tx).getPendingBalance state tx.sender =
      pool.getPendingBalance state tx.sender - tx.amount := by
  simp [getPendingBalance,admission]

theorem admission_consistent (consistent : Consistent ext state pool)
    (admissible : Admissible ext pool state tx) : Consistent ext state (pool.admission state tx) := by
  have fresh := admissible.fresh
  have next := consistent.nextNonce tx.sender
  constructor
  case nonces =>
    intro address
    by_cases self : address = tx.sender
    · subst self
      rw [pendingOf_admission_self fresh,Multiset.map_cons,Multiset.card_cons,nonceRun_succ,
        ← consistent.nonces,admissible.nonce,next]
    · rw [pendingOf_admission_other fresh self]
      exact consistent.nonces address
  case nextNonce =>
    intro address
    by_cases self : address = tx.sender
    · subst self
      rw [getPendingNonce_admission_self,pendingOf_admission_self fresh,Multiset.card_cons,admissible.nonce,
        next,UInt64.add_assoc]
      congr 1
      exact (UInt64.ofNat_add _ 1).symm
    · rw [getPendingNonce_admission_other self,pendingOf_admission_other fresh self]
      exact consistent.nextNonce address
  case balance =>
    intro address
    by_cases self : address = tx.sender
    · subst self
      have before := consistent.balance tx.sender
      have funded := UInt64.le_iff_toNat_le.mp admissible.funded
      rw [getPendingBalance_admission_self,pendingOf_admission_self fresh,
        UInt64.toNat_sub_of_le _ _ admissible.funded]
      simp only [amountSum,Multiset.map_cons,Multiset.sum_cons] at before ⊢
      omega
    · rw [getPendingBalance_admission_other self,pendingOf_admission_other fresh self]
      exact consistent.balance address
  case account =>
    intro address some_pending
    by_cases self : address = tx.sender
    · rw [self]; exact admissible.account
    · rw [pendingOf_admission_other fresh self] at some_pending
      exact consistent.account address some_pending
  case verified =>
    intro hash found held
    by_cases self : hash = tx.hash
    · subst self
      simp only [admission,AList.lookup_insert,Option.some.injEq] at held
      subst held
      exact ⟨rfl,admissible.verified⟩
    · rw [admission,AList.lookup_insert_ne self] at held
      exact consistent.verified hash found held

end admission

theorem addTransaction_consistent {ext : Externals} {state : StateManager} {pool : Mempool}
    (consistent : Consistent ext state pool) (tx : Transaction) :
    Consistent ext state (pool.addTransaction ext state tx).2 := by
  rcases addTransaction_cases ext pool state tx with ⟨-,admissible,added⟩ | ⟨-,-,text,unchanged⟩
  · rw [added]; exact admission_consistent consistent admissible
  · rw [unchanged]; exact consistent.error_irrelevant text

theorem addTransactions_consistent {ext : Externals} {state : StateManager} {pool : Mempool}
    (consistent : Consistent ext state pool) (transactions : List Transaction) :
    Consistent ext state (pool.addTransactions ext state transactions) := by
  induction transactions generalizing pool with
  | nil => exact consistent
  | cons tx rest ih => exact ih (addTransaction_consistent consistent tx)

theorem revalidate_consistent (ext : Externals) (order : IterationOrder) (pool : Mempool)
    (state : StateManager) : Consistent ext state (pool.revalidate ext order state).2 :=
  addTransactions_consistent (empty_consistent ext state) _

/-- Without a wrapped nonce the run of nonces is an interval of numbers. -/
theorem nonceRun_toNat {first : UInt64} {count : Nat} (fits : first.toNat + count < 2 ^ 64) :
    (nonceRun first count).map UInt64.toNat = ((List.range' first.toNat count : List Nat) : Multiset Nat) := by
  have each : ∀ i ∈ List.range count, (first + UInt64.ofNat i).toNat = first.toNat + i := by
    intro i member
    have small := List.mem_range.mp member
    rw [UInt64.toNat_add,UInt64.toNat_ofNat',Nat.mod_eq_of_lt (a := i) (by omega),
      Nat.mod_eq_of_lt (by omega)]
  rw [nonceRun,Multiset.map_map,Multiset.range,Multiset.map_coe]
  congr 1
  rw [List.range'_eq_map_range]
  exact List.map_congr_left each

end TitanCore.Mempool
