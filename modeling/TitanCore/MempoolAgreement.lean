import TitanCore.MempoolFeeding

/-! When a pool takes every transaction it is fed, and when two empty pools over the same accounts
end alike although they are fed the same transactions in different orders. -/
namespace TitanCore.Mempool
open StateManager (sentBy nonceList nonceList_succ nonceList_nodup)

def TakesAll (ext : Externals) (state : StateManager) : Mempool → List Transaction → Prop
  | _,[] => True
  | pool,tx :: rest => Admissible ext pool state tx ∧ TakesAll ext state (pool.admission state tx) rest

/-- What a pool can take of one sender: the nonces go on from the one it expects, and what it
still grants covers the amounts. -/
structure Continues (pool : Mempool) (state : StateManager) (address : Address)
    (sent : List Transaction) : Prop where
  nonces : sent.map Transaction.nonce = nonceList (pool.getPendingNonce state address) sent.length
  funded : (sent.map amountValue).sum ≤ (pool.getPendingBalance state address).toNat
  account : sent ≠ [] → state.accountExists address = true

section taking
variable {ext : Externals} {state : StateManager} {pool : Mempool} {tx : Transaction}
  {sent rest : List Transaction}

theorem Continues.cons (admissible : Admissible ext pool state tx)
    (later : Continues (pool.admission state tx) state tx.sender sent) :
    Continues pool state tx.sender (tx :: sent) := by
  have nonces := later.nonces
  have funded := later.funded
  have covered := UInt64.le_iff_toNat_le.mp admissible.funded
  rw [getPendingNonce_admission_self] at nonces
  rw [getPendingBalance_admission_self,UInt64.toNat_sub_of_le _ _ admissible.funded] at funded
  refine ⟨?_,?_,fun _ => admissible.account⟩
  · rw [List.map_cons,List.length_cons,nonceList_succ,nonces,admissible.nonce]
  · rw [List.map_cons,List.sum_cons]
    change tx.amount.toNat + _ ≤ _
    omega

theorem Continues.uncons (continues : Continues pool state tx.sender (tx :: sent))
    (verified : verifyTransaction ext tx = true) (fresh : pool.pending.lookup tx.hash = none) :
    Admissible ext pool state tx ∧ Continues (pool.admission state tx) state tx.sender sent := by
  have nonces := continues.nonces
  have funded := continues.funded
  have account := continues.account (List.cons_ne_nil tx sent)
  rw [List.map_cons,List.length_cons,nonceList_succ,List.cons.injEq] at nonces
  rw [List.map_cons,List.sum_cons] at funded
  change tx.amount.toNat + _ ≤ _ at funded
  have covered : tx.amount ≤ pool.getPendingBalance state tx.sender :=
    UInt64.le_iff_toNat_le.mpr (by omega)
  refine ⟨⟨verified,fresh,account,nonces.1,covered⟩,?_,?_,fun _ => account⟩
  · rw [getPendingNonce_admission_self,nonces.1]
    exact nonces.2
  · rw [getPendingBalance_admission_self,UInt64.toNat_sub_of_le _ _ covered]
    omega

theorem continues_admission_other {address : Address} (other : address ≠ tx.sender) :
    Continues (pool.admission state tx) state address sent ↔ Continues pool state address sent := by
  constructor
  · rintro ⟨nonces,funded,account⟩
    rw [getPendingNonce_admission_other other] at nonces
    rw [getPendingBalance_admission_other other] at funded
    exact ⟨nonces,funded,account⟩
  · rintro ⟨nonces,funded,account⟩
    refine ⟨?_,?_,account⟩
    · rw [getPendingNonce_admission_other other]
      exact nonces
    · rw [getPendingBalance_admission_other other]
      exact funded

theorem takesAll_iff {transactions : List Transaction}
    (verified : ∀ tx ∈ transactions, verifyTransaction ext tx = true)
    (fresh : ∀ tx ∈ transactions, pool.pending.lookup tx.hash = none)
    (distinct : (transactions.map Transaction.hash).Nodup) :
    TakesAll ext state pool transactions ↔
      ∀ address, Continues pool state address (sentBy address transactions) := by
  induction transactions generalizing pool with
  | nil => exact ⟨fun _ _ => ⟨rfl,Nat.zero_le _,fun more => absurd rfl more⟩,fun _ => trivial⟩
  | cons tx rest ih =>
    obtain ⟨apart,distinct⟩ := List.nodup_cons.mp distinct
    obtain ⟨good,verified⟩ := List.forall_mem_cons.mp verified
    obtain ⟨absent,fresh⟩ := List.forall_mem_cons.mp fresh
    have later : TakesAll ext state (pool.admission state tx) rest ↔ _ :=
      ih verified (fresh_admission apart fresh) distinct
    rw [TakesAll,later]
    constructor
    · rintro ⟨admissible,continues⟩ address
      by_cases self : address = tx.sender
      · subst self
        rw [sentBy_self]
        exact .cons admissible (continues tx.sender)
      · rw [sentBy_other self]
        exact (continues_admission_other self).mp (continues address)
    · intro continues
      have own := continues tx.sender
      rw [sentBy_self] at own
      obtain ⟨admissible,next⟩ := own.uncons good absent
      refine ⟨admissible,fun address => ?_⟩
      by_cases self : address = tx.sender
      · rw [self]
        exact next
      · have others := continues address
        rw [sentBy_other self] at others
        exact (continues_admission_other self).mpr others

theorem TakesAll.transactions {transactions : List Transaction}
    (takes : TakesAll ext state pool transactions) :
    ((pool.addTransactions ext state transactions).transactions : Multiset Transaction) =
      transactions + pool.transactions := by
  induction transactions generalizing pool with
  | nil => exact (zero_add _).symm
  | cons tx rest ih =>
    obtain ⟨admissible,later⟩ := takes
    change (((pool.addTransaction ext state tx).2.addTransactions ext state rest).transactions :
      Multiset Transaction) = _
    rw [addTransaction_admission admissible,ih later,transactions_admission admissible.fresh,
      ← Multiset.cons_coe,← Multiset.cons_coe,Multiset.add_cons,Multiset.cons_add]

/-- A pool cannot grow by more than it is fed, and by as much only if it takes everything. -/
theorem size_addTransactions (pool : Mempool) (transactions : List Transaction) :
    (pool.addTransactions ext state transactions).size ≤ pool.size + transactions.length ∧
    ((pool.addTransactions ext state transactions).size = pool.size + transactions.length →
      TakesAll ext state pool transactions) := by
  induction transactions generalizing pool with
  | nil => exact ⟨Nat.le_refl _,fun _ => trivial⟩
  | cons tx rest ih =>
    change ((pool.addTransaction ext state tx).2.addTransactions ext state rest).size ≤ _ ∧
      (((pool.addTransaction ext state tx).2.addTransactions ext state rest).size = _ → _)
    rw [List.length_cons]
    rcases addTransaction_cases ext pool state tx with ⟨-,admissible,-⟩ | ⟨-,-,text,unchanged⟩
    · have grown : (pool.admission state tx).size = pool.size + 1 := by
        rw [size,transactions_admission admissible.fresh]
        rfl
      obtain ⟨bound,whole⟩ := ih (pool.admission state tx)
      rw [addTransaction_admission admissible]
      refine ⟨by dsimp only; omega,fun full => ⟨admissible,whole ?_⟩⟩
      dsimp only at full
      omega
    · obtain ⟨bound,-⟩ := ih { pool with lastError := text }
      have same : ({ pool with lastError := text } : Mempool).size = pool.size := rfl
      rw [unchanged]
      refine ⟨by omega,fun full => ?_⟩
      omega

/-- An empty pool gives its senders what their accounts give them. -/
theorem Consistent.unused (consistent : Consistent ext state pool) (empty : pool.transactions = [])
    (address : Address) : pool.getPendingNonce state address = state.getNonce address ∧
      pool.getPendingBalance state address = state.getBalance address := by
  have none_pending : pool.pendingOf address = 0 := by
    rw [pendingOf,empty]
    rfl
  have nonce := consistent.nextNonce address
  have balance := consistent.balance address
  rw [none_pending] at nonce balance
  refine ⟨by simpa using nonce,UInt64.toNat.inj ?_⟩
  simpa [amountSum] using balance

/-- Only the order of the nonces matters. -/
theorem Continues.reorder {address : Address} {other : List Transaction}
    (continues : Continues pool state address sent) (same : other.Perm sent)
    (order : other.map Transaction.nonce = sent.map Transaction.nonce) :
    Continues pool state address other := by
  refine ⟨?_,?_,fun some_sent => continues.account fun none_sent => some_sent ?_⟩
  · rw [order,same.length_eq,continues.nonces]
  · rw [(same.map amountValue).sum_eq]
    exact continues.funded
  · rw [none_sent] at same
    exact same.eq_nil

/-- Empty pools over the same accounts can take the same. -/
theorem continues_elsewhere {other : StateManager} {elsewhere : Mempool} {address : Address}
    (accounts : other.accounts = state.accounts) (consistent : Consistent ext state pool)
    (consistent' : Consistent ext other elsewhere) (empty : pool.transactions = [])
    (empty' : elsewhere.transactions = []) :
    Continues elsewhere other address sent ↔ Continues pool state address sent := by
  obtain ⟨nonce,balance⟩ := consistent.unused empty address
  obtain ⟨nonce',balance'⟩ := consistent'.unused empty' address
  have next : elsewhere.getPendingNonce other address = pool.getPendingNonce state address := by
    rw [nonce,nonce',StateManager.getNonce,StateManager.getNonce,accounts]
  have funds : elsewhere.getPendingBalance other address = pool.getPendingBalance state address := by
    rw [balance,balance',StateManager.getBalance,StateManager.getBalance,accounts]
  have exist : other.accountExists address = state.accountExists address := by
    rw [StateManager.accountExists,StateManager.accountExists,accounts]
  constructor
  · rintro ⟨nonces,funded,account⟩
    rw [next] at nonces
    rw [funds] at funded
    rw [exist] at account
    exact ⟨nonces,funded,account⟩
  · rintro ⟨nonces,funded,account⟩
    rw [← next] at nonces
    rw [← funds] at funded
    rw [← exist] at account
    exact ⟨nonces,funded,account⟩

theorem lookup_of_empty (empty : pool.transactions = []) (hash : Hash) : pool.pending.lookup hash = none := by
  cases found : pool.pending.lookup hash with
  | none => rfl
  | some held =>
    have member := mem_transactions.mpr ⟨hash,found⟩
    rw [empty] at member
    cases member

theorem TakesAll.held {transactions : List Transaction} (takes : TakesAll ext state pool transactions)
    (empty : pool.transactions = []) :
    (pool.addTransactions ext state transactions).transactions.Perm transactions := by
  have all := takes.transactions
  rw [empty,Multiset.coe_nil,add_zero] at all
  exact Multiset.coe_eq_coe.mp all

section taken
variable {accepted : List Transaction} (consistent : Consistent ext state pool)
  (empty : pool.transactions = []) (takes : TakesAll ext state pool accepted)
include consistent empty takes

theorem TakesAll.verified {tx : Transaction} (member : tx ∈ accepted) : verifyTransaction ext tx = true := by
  have filed : Filed ext (pool.addTransactions ext state accepted) :=
    Filed.addTransactions consistent.verified accepted
  exact (filed tx.hash tx ((filed.mem tx).mp ((takes.held empty).mem_iff.mpr member))).2

theorem TakesAll.distinct : (accepted.map Transaction.hash).Nodup := by
  have filed : Filed ext (pool.addTransactions ext state accepted) :=
    Filed.addTransactions consistent.verified accepted
  exact ((takes.held empty).map Transaction.hash).nodup_iff.mp filed.hashes_nodup

theorem TakesAll.parts (address : Address) : Continues pool state address (sentBy address accepted) :=
  (takesAll_iff (fun _ member => takes.verified consistent empty member)
    (fun tx _ => lookup_of_empty empty tx.hash) (takes.distinct consistent empty)).mp takes address

/-- Two empty pools over the same accounts, the second fed in another order what the first took:
they end with the same transactions exactly when each sender's nonces come in the same order. -/
theorem TakesAll.fed_agree_iff {other : StateManager} {elsewhere : Mempool}
    (accounts : other.accounts = state.accounts) (consistent' : Consistent ext other elsewhere)
    (empty' : elsewhere.transactions = []) {delivered : List Transaction} (same : delivered.Perm accepted) :
    (∀ hash, (elsewhere.addTransactions ext other delivered).pending.lookup hash =
      (pool.addTransactions ext state accepted).pending.lookup hash) ↔
    ∀ address, (sentBy address delivered).map Transaction.nonce =
      (sentBy address accepted).map Transaction.nonce := by
  have filed : Filed ext (pool.addTransactions ext state accepted) :=
    Filed.addTransactions consistent.verified accepted
  have filed' : Filed ext (elsewhere.addTransactions ext other delivered) :=
    Filed.addTransactions consistent'.verified delivered
  have held := takes.held empty
  have parts := takes.parts consistent empty
  have whole : TakesAll ext other elsewhere delivered ↔ _ :=
    takesAll_iff (fun _ member => takes.verified consistent empty (same.mem_iff.mp member))
      (fun tx _ => lookup_of_empty empty' tx.hash)
      ((same.map Transaction.hash).nodup_iff.mpr (takes.distinct consistent empty))
  constructor
  · intro agree address
    have members : ∀ tx, tx ∈ (elsewhere.addTransactions ext other delivered).transactions ↔
        tx ∈ (pool.addTransactions ext state accepted).transactions := fun tx => by
      rw [filed'.mem,filed.mem,agree]
    have level := ((List.perm_ext_iff_of_nodup (.of_map _ filed'.hashes_nodup)
      (.of_map _ filed.hashes_nodup)).mpr members).length_eq
    have grown : (elsewhere.addTransactions ext other delivered).size =
        elsewhere.size + delivered.length := by
      rw [size,level,held.length_eq,size,empty',same.length_eq,List.length_nil,Nat.zero_add]
    -- a pool that ends as large refused nothing
    have full := (size_addTransactions elsewhere delivered).2 grown
    have there := (continues_elsewhere accounts consistent consistent' empty empty').mp
      (whole.mp full address)
    have count : (sentBy address delivered).length = (sentBy address accepted).length :=
      (same.filter _).length_eq
    rw [there.nonces,(parts address).nonces,count]
  · intro order hash
    have full : TakesAll ext other elsewhere delivered := whole.mpr fun address =>
      (continues_elsewhere accounts consistent consistent' empty empty').mpr
        ((parts address).reorder (same.filter _) (order address))
    have held' := full.held empty'
    ext tx
    rw [filed'.lookup,filed.lookup,held'.mem_iff,held.mem_iff,same.mem_iff]

/-- In the same order they agree as lists, unless a sender's nonces went round. -/
theorem TakesAll.sentBy_eq_of_nonces {address : Address} {delivered : List Transaction}
    (same : delivered.Perm accepted) (few : accepted.length ≤ 2 ^ 64)
    (order : (sentBy address delivered).map Transaction.nonce =
      (sentBy address accepted).map Transaction.nonce) :
    sentBy address delivered = sentBy address accepted := by
  have distinct : ((sentBy address accepted).map Transaction.nonce).Nodup := by
    rw [(takes.parts consistent empty address).nonces]
    exact nonceList_nodup _ ((List.length_filter_le _ _).trans few)
  have members : ∀ tx, tx ∈ sentBy address delivered ↔ tx ∈ sentBy address accepted :=
    fun _ => (same.filter _).mem_iff
  apply List.ext_getElem
  · simpa using congrArg List.length order
  · intro i inside inside'
    refine List.inj_on_of_nodup_map distinct ((members _).mp (List.getElem_mem inside))
      (List.getElem_mem inside') ?_
    have at_i := congrArg (·[i]?) order
    simpa [List.getElem?_eq_getElem inside,List.getElem?_eq_getElem inside'] using at_i

end taken

theorem TakesAll.concat {transactions : List Transaction} (takes : TakesAll ext state pool transactions)
    (admissible : Admissible ext (pool.addTransactions ext state transactions) state tx) :
    TakesAll ext state pool (transactions ++ [tx]) := by
  induction transactions generalizing pool with
  | nil => exact ⟨admissible,trivial⟩
  | cons first rest ih =>
    refine ⟨takes.1,ih takes.2 ?_⟩
    rw [addTransactions,List.foldl_cons,addTransaction_admission takes.1] at admissible
    exact admissible

end taking

/-- A pool without its error text, which no decision depends on. -/
def quiet (pool : Mempool) : Mempool := { pool with lastError := [] }

section quiet
variable {ext : Externals} {state : StateManager} {pool other : Mempool} {tx : Transaction}

theorem Admissible.of_quiet (same : pool.quiet = other.quiet) (admissible : Admissible ext pool state tx) :
    Admissible ext other state tx := by
  obtain ⟨pending,nonces,balances,_⟩ := pool
  obtain ⟨_,_,_,_⟩ := other
  cases same
  exact ⟨admissible.verified,admissible.fresh,admissible.account,admissible.nonce,admissible.funded⟩

theorem quiet_pending (same : pool.quiet = other.quiet) : pool.pending = other.pending :=
  (congrArg pending same : pool.quiet.pending = other.quiet.pending)

theorem quiet_admission (same : pool.quiet = other.quiet) :
    pool.admission state tx = other.admission state tx := by
  obtain ⟨pending,nonces,balances,_⟩ := pool
  obtain ⟨_,_,_,_⟩ := other
  cases same
  rfl

theorem quiet_addTransaction (same : pool.quiet = other.quiet) :
    (pool.addTransaction ext state tx).1 = (other.addTransaction ext state tx).1 ∧
    (pool.addTransaction ext state tx).2.quiet = (other.addTransaction ext state tx).2.quiet := by
  rcases addTransaction_cases ext pool state tx with ⟨yes,admissible,added⟩ | ⟨no,refused,text,unchanged⟩
  · rw [addTransaction_admission (admissible.of_quiet same),yes,added]
    exact ⟨rfl,congrArg quiet (quiet_admission same)⟩
  · rcases addTransaction_cases ext other state tx with ⟨-,admissible,-⟩ | ⟨no',-,text',unchanged'⟩
    · exact absurd (admissible.of_quiet same.symm) refused
    · rw [no,no',unchanged,unchanged']
      exact ⟨rfl,same⟩

theorem quiet_addTransactions (same : pool.quiet = other.quiet) (transactions : List Transaction) :
    (pool.addTransactions ext state transactions).quiet =
      (other.addTransactions ext state transactions).quiet := by
  induction transactions generalizing pool other with
  | nil => exact same
  | cons tx rest ih => exact ih (quiet_addTransaction same).2

theorem addTransactions_concat (pool : Mempool) (transactions : List Transaction) (tx : Transaction) :
    pool.addTransactions ext state (transactions ++ [tx]) =
      ((pool.addTransactions ext state transactions).addTransaction ext state tx).2 :=
  List.foldl_append ..

end quiet
end TitanCore.Mempool
