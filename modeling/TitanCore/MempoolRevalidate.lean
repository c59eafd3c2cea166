import Mathlib.Data.List.Infix
import TitanCore.MempoolFeeding
import TitanCore.Reference

/-! The exact result of `revalidate`, in every state that calls on a pool and on the ledger
behind it reach. -/
namespace TitanCore.Mempool
open StateManager (sentBy)

/-- A loop that visits the map as it is stored. -/
def stored : IterationOrder := ⟨id,List.Perm.refl⟩

/-- A call on the pool, or on the ledger behind it. The other members of the pool only read. -/
inductive Call where
  | addTransaction (tx : Transaction)
  | removeMinedTransactions (block : Block)
  | revalidate (order : IterationOrder)
  | applyBlock (block : Block)

def perform (ext : Externals) (now : StateManager × Mempool) : Call → StateManager × Mempool
  | .addTransaction tx => (now.1,(now.2.addTransaction ext now.1 tx).2)
  | .removeMinedTransactions block => (now.1,now.2.removeMinedTransactions block)
  | .revalidate order => (now.1,(now.2.revalidate ext order now.1).2)
  | .applyBlock block => ((now.1.applyBlock block).2,now.2)

def performs (ext : Externals) (state : StateManager) (calls : List Call) : StateManager × Mempool :=
  calls.foldl (perform ext) (state,empty)

/-- Each pending transaction was accepted at a nonce of its own, below the one its sender is
expected to use next. -/
structure Sequenced (ext : Externals) (pool : Mempool) : Prop where
  filed : Filed ext pool
  below : ∀ tx ∈ pool.transactions, ∃ next, pool.pendingNonces.lookup tx.sender = some next ∧
    tx.nonce < next
  distinct : ∀ tx ∈ pool.transactions, ∀ other ∈ pool.transactions, tx.sender = other.sender →
    tx.nonce = other.nonce → tx = other

section invariant
variable {ext : Externals} {state : StateManager} {pool : Mempool}

theorem empty_sequenced (ext : Externals) : Sequenced ext empty := by
  refine ⟨fun hash tx held => ?_,fun tx member => ?_,fun tx member => ?_⟩
  · simp [empty] at held
  · simp [transactions,empty] at member
  · simp [transactions,empty] at member

theorem Sequenced.admission {tx : Transaction} (sequenced : Sequenced ext pool)
    (admissible : Admissible ext pool state tx) (fits : nonceValue tx + 1 < 2 ^ 64) :
    Sequenced ext (pool.admission state tx) := by
  have above : tx.nonce < tx.nonce + 1 := by
    rw [UInt64.lt_iff_toNat_lt,UInt64.toNat_add]
    change nonceValue tx < (nonceValue tx + 1) % 2 ^ 64
    rw [Nat.mod_eq_of_lt fits]
    exact Nat.lt_succ_self _
  -- the sender's earlier transactions are below the nonce it was expected to use
  have earlier : ∀ other ∈ pool.transactions, other.sender = tx.sender → other.nonce < tx.nonce := by
    intro other member same
    obtain ⟨next,expected,less⟩ := sequenced.below other member
    rw [admissible.nonce,getPendingNonce,← same,expected]
    exact less
  have members : (pool.admission state tx).transactions = tx :: pool.transactions :=
    transactions_admission admissible.fresh
  refine ⟨sequenced.filed.admission admissible,?_,?_⟩
  · intro other member
    rw [members] at member
    by_cases same : other.sender = tx.sender
    · refine ⟨tx.nonce + 1,by rw [same]; exact Finmap.lookup_insert _,?_⟩
      rcases List.mem_cons.mp member with rfl | inside
      · exact above
      · exact UInt64.lt_trans (earlier other inside same) above
    · rcases List.mem_cons.mp member with rfl | inside
      · exact absurd rfl same
      · obtain ⟨next,expected,less⟩ := sequenced.below other inside
        exact ⟨next,by rw [Mempool.admission,Finmap.lookup_insert_of_ne _ same]; exact expected,less⟩
  · rw [members]
    intro one first other second senders nonces
    rcases List.mem_cons.mp first with rfl | inside
    · rcases List.mem_cons.mp second with rfl | inside
      · rfl
      · have less := earlier other inside senders.symm
        rw [nonces] at less
        exact absurd less (UInt64.lt_irrefl _)
    · rcases List.mem_cons.mp second with rfl | inside'
      · have less := earlier one inside senders
        rw [nonces] at less
        exact absurd less (UInt64.lt_irrefl _)
      · exact sequenced.distinct one inside other inside' senders nonces

theorem Sequenced.error_irrelevant (sequenced : Sequenced ext pool) (text : Bytes) :
    Sequenced ext { pool with lastError := text } :=
  ⟨sequenced.filed,sequenced.below,sequenced.distinct⟩

theorem Sequenced.addTransactions (sequenced : Sequenced ext pool) (transactions : List Transaction)
    (fits : NoncesFit transactions) : Sequenced ext (pool.addTransactions ext state transactions) := by
  induction transactions generalizing pool with
  | nil => exact sequenced
  | cons tx rest ih =>
    obtain ⟨fit,fits⟩ := List.forall_mem_cons.mp fits
    change Sequenced ext ((pool.addTransaction ext state tx).2.addTransactions ext state rest)
    rcases addTransaction_cases ext pool state tx with ⟨-,admissible,added⟩ | ⟨-,-,text,unchanged⟩
    · rw [added]
      exact ih (sequenced.admission admissible fit) fits
    · rw [unchanged]
      exact ih (sequenced.error_irrelevant text) fits

theorem lookup_eraseAll {pending : PendingMap} {mined : List Transaction} {hash : Hash} :
    (mined.foldl (fun pending tx => pending.erase tx.hash) pending).lookup hash =
      if hash ∈ mined.map Transaction.hash then none else pending.lookup hash := by
  induction mined generalizing pending with
  | nil => simp
  | cons tx rest ih =>
    rw [List.foldl_cons,ih,List.map_cons]
    by_cases same : hash = tx.hash
    · subst same
      simp
    · simp [same,AList.lookup_erase_ne same]

/-- Erasing takes transactions out and touches nothing else. -/
theorem lookup_removeMined {block : Block} {hash : Hash} :
    (pool.removeMinedTransactions block).pending.lookup hash =
      if hash ∈ block.transactions.map Transaction.hash then none else pool.pending.lookup hash :=
  lookup_eraseAll

theorem mem_removeMined {block : Block} {tx : Transaction}
    (member : tx ∈ (pool.removeMinedTransactions block).transactions) : tx ∈ pool.transactions := by
  obtain ⟨hash,held⟩ := mem_transactions.mp member
  rw [lookup_removeMined] at held
  split at held
  · cases held
  · exact mem_transactions.mpr ⟨hash,held⟩

theorem Filed.removeMined (filed : Filed ext pool) (block : Block) :
    Filed ext (pool.removeMinedTransactions block) := by
  intro hash tx held
  rw [lookup_removeMined] at held
  split at held
  · cases held
  · exact filed hash tx held

theorem Sequenced.removeMined (sequenced : Sequenced ext pool) (block : Block) :
    Sequenced ext (pool.removeMinedTransactions block) :=
  ⟨sequenced.filed.removeMined block,fun tx member => sequenced.below tx (mem_removeMined member),
    fun tx first other second => sequenced.distinct tx (mem_removeMined first) other (mem_removeMined second)⟩

/-- One call, from a state and into a state where the nonces fit. -/
theorem perform_sequenced {now : StateManager × Mempool} (call : Call)
    (sequenced : Sequenced ext now.2) (before : NoncesFit now.2.transactions)
    (after : NoncesFit (perform ext now call).2.transactions) :
    Sequenced ext (perform ext now call).2 := by
  cases call with
  | addTransaction tx =>
    rcases addTransaction_cases ext now.2 now.1 tx with ⟨-,admissible,added⟩ | ⟨-,-,text,unchanged⟩
    · simp only [perform,added] at after ⊢
      have pending : tx ∈ (now.2.admission now.1 tx).transactions := by
        rw [transactions_admission admissible.fresh]
        exact List.mem_cons_self
      exact sequenced.admission admissible (after tx pending)
    · simp only [perform,unchanged]
      exact sequenced.error_irrelevant text
  | removeMinedTransactions block => exact sequenced.removeMined block
  | revalidate order =>
    exact (empty_sequenced ext).addTransactions _ fun tx member =>
      before tx ((sorted_perm order now.2).mem_iff.mp member)
  | applyBlock block => exact sequenced

/-- Every run of calls keeps the pending transactions in sequence. -/
theorem performs_sequenced (state : StateManager) (calls : List Call)
    (fits : ∀ earlier, earlier <+: calls → NoncesFit (performs ext state earlier).2.transactions) :
    Sequenced ext (performs ext state calls).2 := by
  induction calls using List.reverseRecOn with
  | nil => exact empty_sequenced ext
  | append_singleton calls call ih =>
    have longer : calls <+: calls ++ [call] := List.prefix_append _ _
    have last := fits _ (List.prefix_refl _)
    simp only [performs,List.foldl_append,List.foldl_cons,List.foldl_nil] at last ⊢
    exact perform_sequenced call (ih fun earlier short => fits earlier (short.trans longer))
      (fits calls longer) last

end invariant

/-- Pending transactions with consecutive nonces from the confirmed one on, which the sender's
account exists for and covers. -/
structure PendingRun (state : StateManager) (pool : Mempool) (address : Address)
    (run : List Transaction) : Prop where
  account : run ≠ [] → state.accountExists address = true
  isRun : GreedyRun.IsRun nonceValue amountValue (state.getNonce address).toNat
    (state.getBalance address).toNat (sentBy address pool.transactions) run

structure LongestRun (state : StateManager) (pool : Mempool) (address : Address)
    (run : List Transaction) : Prop extends PendingRun state pool address run where
  longest : ∀ other, PendingRun state pool address other → other <+: run

structure HoldsRun (state : StateManager) (pool : Mempool) (address : Address)
    (run : List Transaction) : Prop where
  pending : pool.pendingOf address = (run : Multiset Transaction)
  nonce : (pool.getPendingNonce state address).toNat = (state.getNonce address).toNat + run.length
  balance : (pool.getPendingBalance state address).toNat + (run.map amountValue).sum =
    (state.getBalance address).toNat

structure SamePool (a b : Mempool) : Prop where
  pending : ∀ hash, a.pending.lookup hash = b.pending.lookup hash
  nonces : a.pendingNonces = b.pendingNonces
  balances : a.pendingBalances = b.pendingBalances

/-- The two maps of senders hold no sender without pending transactions. -/
structure Tight (pool : Mempool) : Prop where
  nonces : ∀ address, pool.pendingNonces.lookup address = none ↔ pool.pendingOf address = 0
  balances : ∀ address, pool.pendingBalances.lookup address = none ↔ pool.pendingOf address = 0

section rebuild
variable {ext : Externals} {state : StateManager} {pool : Mempool}

theorem Tight.admission {tx : Transaction} (tight : Tight pool)
    (admissible : Admissible ext pool state tx) : Tight (pool.admission state tx) := by
  constructor
  · intro address
    by_cases self : address = tx.sender
    · subst self
      rw [pendingOf_admission_self admissible.fresh]
      simp [Mempool.admission]
    · rw [pendingOf_admission_other admissible.fresh self,← tight.nonces,Mempool.admission,
        Finmap.lookup_insert_of_ne _ self]
  · intro address
    by_cases self : address = tx.sender
    · subst self
      rw [pendingOf_admission_self admissible.fresh]
      simp [Mempool.admission]
    · rw [pendingOf_admission_other admissible.fresh self,← tight.balances,Mempool.admission,
        Finmap.lookup_insert_of_ne _ self]

theorem Tight.addTransactions (tight : Tight pool) (transactions : List Transaction) :
    Tight (pool.addTransactions ext state transactions) := by
  induction transactions generalizing pool with
  | nil => exact tight
  | cons tx rest ih =>
    change Tight ((pool.addTransaction ext state tx).2.addTransactions ext state rest)
    rcases addTransaction_cases ext pool state tx with ⟨-,admissible,added⟩ | ⟨-,-,text,unchanged⟩
    · rw [added]
      exact ih (tight.admission admissible)
    · rw [unchanged]
      exact ih ⟨tight.nonces,tight.balances⟩

theorem Tight.revalidate (order : IterationOrder) (pool : Mempool) (state : StateManager) :
    Tight (pool.revalidate ext order state).2 :=
  Tight.addTransactions ⟨fun _ => ⟨fun _ => rfl,fun _ => rfl⟩,fun _ => ⟨fun _ => rfl,fun _ => rfl⟩⟩ _

/-- Two such pools with the same runs have the same maps. -/
theorem Tight.same {a b : Mempool} (tight : Tight a) (tight' : Tight b)
    (runs : ∀ address, ∃ run, HoldsRun state a address run ∧ HoldsRun state b address run) :
    a.pendingNonces = b.pendingNonces ∧ a.pendingBalances = b.pendingBalances := by
  have pending : ∀ address, a.pendingOf address = 0 ↔ b.pendingOf address = 0 := by
    intro address
    obtain ⟨run,one,other⟩ := runs address
    rw [one.pending,other.pending]
  constructor
  · apply Finmap.ext_lookup
    intro address
    obtain ⟨run,one,other⟩ := runs address
    have nonces : a.getPendingNonce state address = b.getPendingNonce state address :=
      UInt64.toNat.inj (one.nonce.trans other.nonce.symm)
    have absent : a.pendingNonces.lookup address = none ↔ b.pendingNonces.lookup address = none := by
      rw [tight.nonces,tight'.nonces,pending]
    unfold getPendingNonce at nonces
    cases held : a.pendingNonces.lookup address with
    | none => exact (absent.mp held).symm
    | some nonce =>
      cases held' : b.pendingNonces.lookup address with
      | none => rw [absent.mpr held'] at held; cases held
      | some nonce' => rw [held,held'] at nonces; exact congrArg some nonces
  · apply Finmap.ext_lookup
    intro address
    obtain ⟨run,one,other⟩ := runs address
    have balances : a.getPendingBalance state address = b.getPendingBalance state address := by
      have first := one.balance
      have second := other.balance
      exact UInt64.toNat.inj (by omega)
    have absent : a.pendingBalances.lookup address = none ↔ b.pendingBalances.lookup address = none := by
      rw [tight.balances,tight'.balances,pending]
    unfold getPendingBalance at balances
    cases held : a.pendingBalances.lookup address with
    | none => exact (absent.mp held).symm
    | some balance =>
      cases held' : b.pendingBalances.lookup address with
      | none => rw [absent.mpr held'] at held; cases held
      | some balance' => rw [held,held'] at balances; exact congrArg some balances

theorem Filed.ascending (filed : Filed ext pool)
    (distinct : ∀ tx ∈ pool.transactions, ∀ other ∈ pool.transactions, tx.sender = other.sender →
      tx.nonce = other.nonce → tx = other) (order : IterationOrder) (address : Address) :
    (sentBy address (sortTransactions (order.visit pool.transactions))).Pairwise
      fun a b => nonceValue a < nonceValue b := by
  have same := sorted_perm order pool
  have apart : (sentBy address (sortTransactions (order.visit pool.transactions))).Pairwise (· ≠ ·) :=
    (same.nodup_iff.mpr filed.hashes_nodup.of_map).filter _
  have inside : ∀ tx ∈ sentBy address (sortTransactions (order.visit pool.transactions)),
      tx ∈ pool.transactions ∧ tx.sender = address := by
    intro tx member
    obtain ⟨listed,sender⟩ := List.mem_filter.mp member
    exact ⟨same.mem_iff.mp listed,of_decide_eq_true sender⟩
  refine ((sentBy_sorted _ address).and apart).imp_of_mem ?_
  rintro a b first second ⟨below,differ⟩
  apply lt_of_le_of_ne below
  intro nonces
  obtain ⟨first,from_a⟩ := inside a first
  obtain ⟨second,from_b⟩ := inside b second
  exact differ (distinct a first b second (from_a.trans from_b.symm) (UInt64.toNat.inj nonces))

theorem Sequenced.kept_longest (sequenced : Sequenced ext pool) (order : IterationOrder)
    (address : Address) : LongestRun state pool address (pool.kept order state address) := by
  have sub : ∀ tx, tx ∈ sentBy address (sortTransactions (order.visit pool.transactions)) ↔
      tx ∈ sentBy address pool.transactions := fun tx =>
    ((sorted_perm order pool).filter _).mem_iff
  rw [kept,taken]
  by_cases account : state.accountExists address = true
  · rw [if_pos account,getPendingNonce_empty,getPendingBalance_empty]
    refine ⟨⟨fun _ => account,?_⟩,fun other isRun => ?_⟩
    · exact (GreedyRun.greedy_isRun _ _ _).mono fun tx member => (sub tx).mp member
    · exact GreedyRun.greedy_longest (sequenced.filed.ascending sequenced.distinct order address)
        (isRun.isRun.mono fun tx member => (sub tx).mpr member)
  · rw [if_neg account]
    refine ⟨⟨fun some_run => absurd rfl some_run,.nil _ _ _⟩,fun other isRun => ?_⟩
    by_cases short : other = []
    · rw [short]
    · exact absurd (isRun.account short) account

theorem holdsRun_kept (filed : Filed ext pool) (fits : NoncesFit pool.transactions)
    (order : IterationOrder) (address : Address) :
    HoldsRun state (pool.revalidate ext order state).2 address (pool.kept order state address) := by
  have feeds : Feeds state empty (pool.revalidate ext order state).2 address
    (pool.kept order state address) := revalidate_feeds filed fits order address
  refine ⟨pendingOf_revalidate filed fits order address,?_,?_⟩
  · rw [feeds.nonce,getPendingNonce_empty]
  · rw [feeds.balance,getPendingBalance_empty]

theorem HoldsRun.covered {before : Mempool} {address : Address} {run : List Transaction}
    (holds : HoldsRun state pool address run) (isRun : PendingRun state before address run) :
    Covered state pool address := by
  constructor
  · rw [holds.pending,Multiset.map_coe,Multiset.coe_card,isRun.isRun.keys]
  · rw [holds.pending,amountSum,Multiset.map_coe,Multiset.sum_coe]
    exact isRun.isRun.covered
  · rw [holds.pending]
    intro some_pending
    exact isRun.account fun none_run => some_pending (by rw [none_run]; rfl)

theorem kept_le (longest : LongestRun state pool address (pool.kept order state address)) :
    (pool.kept order state address : Multiset Transaction) ≤ pool.pendingOf address := by
  have nodup : (pool.kept order state address).Nodup := by
    have keys : ((pool.kept order state address).map nonceValue).Nodup := by
      rw [longest.isRun.keys]
      exact List.nodup_range'
    exact keys.of_map
  rw [Multiset.le_iff_subset (Multiset.coe_nodup.mpr nodup)]
  intro tx member
  have sent := longest.isRun.member tx member
  rwa [pendingOf,Multiset.filter_coe]

end rebuild

/-- In every state that any calls reach, a rebuild leaves each sender its longest payable run and
drops the rest; a second rebuild has nothing more to do. -/
theorem revalidate_exact {ext : Externals} (state : StateManager) (calls : List Call)
    (fits : ∀ earlier, earlier <+: calls → NoncesFit (performs ext state earlier).2.transactions)
    (order order' : IterationOrder) :
    let now := performs ext state calls
    let result := now.2.revalidate ext order now.1
    let again := result.2.revalidate ext order' now.1
    (∀ address, ∃ run, LongestRun now.1 now.2 address run ∧ HoldsRun now.1 result.2 address run) ∧
    ((result.2.transactions : Multiset Transaction) ≤ now.2.transactions ∧
      result.1 = ((now.2.transactions : Multiset Transaction) - result.2.transactions).card) ∧
    again.1 = 0 ∧ SamePool again.2 result.2 := by
  intro now result again
  have sequenced : Sequenced ext now.2 := performs_sequenced state calls fits
  have fit : NoncesFit now.2.transactions := fits calls (List.prefix_refl _)
  have longest : ∀ address, LongestRun now.1 now.2 address (now.2.kept order now.1 address) :=
    sequenced.kept_longest order
  have holds : ∀ address, HoldsRun now.1 result.2 address (now.2.kept order now.1 address) :=
    holdsRun_kept sequenced.filed fit order
  have filed : Filed ext result.2 := .revalidate order now.2 now.1
  have kept_pending : (result.2.transactions : Multiset Transaction) ≤ now.2.transactions :=
    transactions_le fun address => by
      rw [(holds address).pending]
      exact kept_le (longest address)
  have fit' : NoncesFit result.2.transactions := fun tx member =>
    fit tx (Multiset.mem_of_le kept_pending member)
  have covered : ∀ address, Covered now.1 result.2 address := fun address =>
    (holds address).covered (longest address).toPendingRun
  obtain ⟨none_evicted,same_pending,lookups⟩ := revalidate_keeps filed fit' covered order'
  have holds' : ∀ address, HoldsRun now.1 again.2 address (result.2.kept order' now.1 address) :=
    holdsRun_kept filed fit' order'
  -- the runs of the two rebuilds hold the same transactions, so they are equally long and heavy
  have runs : ∀ address, ∃ run, HoldsRun now.1 again.2 address run ∧ HoldsRun now.1 result.2 address run := by
    intro address
    have same : (result.2.kept order' now.1 address : Multiset Transaction) =
        (now.2.kept order now.1 address : Multiset Transaction) := by
      rw [← (holds' address).pending,same_pending,(holds address).pending]
    have perm := Multiset.coe_eq_coe.mp same
    refine ⟨_,⟨?_,?_,?_⟩,holds address⟩
    · rw [same_pending,(holds address).pending]
    · rw [(holds' address).nonce,perm.length_eq]
    · rw [← (holds' address).balance,(perm.map amountValue).sum_eq]
  obtain ⟨nonces,balances⟩ := Tight.same (Tight.revalidate order' result.2 now.1)
    (Tight.revalidate order now.2 now.1) runs
  refine ⟨fun address => ⟨_,longest address,holds address⟩,⟨kept_pending,?_⟩,none_evicted,lookups,
    nonces,balances⟩
  rw [Multiset.card_sub kept_pending,Multiset.coe_card,Multiset.coe_card,
    ← (order.complete now.2.transactions).length_eq]
  rfl

instance (transactions : List Transaction) : Decidable (NoncesFit transactions) :=
  inferInstanceAs (Decidable (∀ tx ∈ transactions, nonceValue tx + 1 < 2 ^ 64))

open Reference in
/-- Two payments are pending when a block confirms the first one: the second is kept. -/
theorem revalidate_exact_confirmed :
    let state := StateManager.create ((∅ : AddressMap UInt64).insert validatorAddress 10)
    let calls := [Call.addTransaction payment,.addTransaction secondPayment,.applyBlock paying]
    let now := performs libraries state calls
    let result := now.2.revalidate libraries stored now.1
    (∃ run, LongestRun now.1 now.2 validatorAddress run ∧ HoldsRun now.1 result.2 validatorAddress run) ∧
      result.2.transactions = [secondPayment] ∧ result.1 = 1 ∧
      (result.2.revalidate libraries stored now.1).1 = 0 := by
  intro state calls now result
  have fits : ∀ earlier ∈ calls.inits, NoncesFit (performs libraries state earlier).2.transactions := by
    decide +kernel
  obtain ⟨runs,-,nothing,-⟩ := revalidate_exact state calls
    (fun earlier short => fits earlier ((List.mem_inits _ _).mpr short)) stored stored
  exact ⟨runs validatorAddress,by decide +kernel,by decide +kernel,nothing⟩

open Reference in
/-- The first rebuild drops a confirmed payment and leaves the text of the refusal, which the
second one clears. -/
theorem revalidate_error_cleared : ¬ ∀ (ext : Externals) (state : StateManager) (calls : List Call),
    (∀ earlier, earlier <+: calls → NoncesFit (performs ext state earlier).2.transactions) →
    ∀ order order' : IterationOrder,
      let now := performs ext state calls
      let result := now.2.revalidate ext order now.1
      (result.2.revalidate ext order' now.1).2.lastError = result.2.lastError := by
  intro always
  let state := StateManager.create ((∅ : AddressMap UInt64).insert validatorAddress 10)
  let calls := [Call.addTransaction payment,.applyBlock paying]
  have fits : ∀ earlier ∈ calls.inits, NoncesFit (performs libraries state earlier).2.transactions := by
    decide +kernel
  have unchanged := always libraries state calls
    (fun earlier short => fits earlier ((List.mem_inits _ _).mpr short)) stored stored
  revert unchanged
  decide +kernel

inductive Call.Alike : Call → Call → Prop where
  | addTransaction (tx : Transaction) : Alike (.addTransaction tx) (.addTransaction tx)
  | removeMinedTransactions (block : Block) :
    Alike (.removeMinedTransactions block) (.removeMinedTransactions block)
  | revalidate (order order' : IterationOrder) : Alike (.revalidate order) (.revalidate order')
  | applyBlock (block : Block) : Alike (.applyBlock block) (.applyBlock block)

section orders
variable {ext : Externals} {pool : Mempool}

theorem Filed.nodup (filed : Filed ext pool) : pool.transactions.Nodup := by
  have hashes : (pool.transactions.map Transaction.hash).Nodup := by
    rw [filed.hashes]
    exact pool.pending.keys_nodup
  exact hashes.of_map

theorem Sequenced.nodup (sequenced : Sequenced ext pool) :
    (pool.transactions.map fun tx => (tx.sender,tx.nonce)).Nodup :=
  List.Nodup.map_on (fun tx first other second same =>
    sequenced.distinct tx first other second (Prod.mk.inj same).1 (Prod.mk.inj same).2)
    sequenced.filed.nodup

/-- The list both sorts produce. -/
theorem Sequenced.sorted (sequenced : Sequenced ext pool) (order order' : IterationOrder) :
    sortTransactions (order.visit pool.transactions) =
      sortTransactions (order'.visit pool.transactions) := by
  have visited : ∀ tx ∈ order.visit pool.transactions, tx ∈ pool.transactions :=
    fun tx member => (order.complete _).mem_iff.mp member
  exact sortTransactions_eq ((order.complete _).trans (order'.complete _).symm)
    fun tx first other second => sequenced.distinct tx (visited tx first) other (visited other second)

theorem Sequenced.revalidate_eq (sequenced : Sequenced ext pool) (state : StateManager)
    (order order' : IterationOrder) :
    pool.revalidate ext order state = pool.revalidate ext order' state := by
  simp only [revalidate,sequenced.sorted order order',(order.complete _).length_eq,
    (order'.complete _).length_eq]

theorem Sequenced.perform_alike {now : StateManager × Mempool} {call call' : Call}
    (sequenced : Sequenced ext now.2) (alike : call.Alike call') :
    perform ext now call' = perform ext now call := by
  cases alike with
  | addTransaction tx => rfl
  | removeMinedTransactions block => rfl
  | revalidate order order' => rw [perform,perform,sequenced.revalidate_eq now.1 order order']
  | applyBlock block => rfl

theorem Sequenced.performs_alike {now : StateManager × Mempool} {calls calls' : List Call}
    (sequenced : Sequenced ext now.2) (alike : List.Forall₂ Call.Alike calls calls')
    (fits : ∀ earlier, earlier <+: calls →
      NoncesFit (earlier.foldl (perform ext) now).2.transactions) :
    calls'.foldl (perform ext) now = calls.foldl (perform ext) now := by
  induction alike generalizing now with
  | nil => rfl
  | @cons call call' rest rest' same _ ih =>
    have before := fits [] List.nil_prefix
    have after := fits [call] (List.prefix_append [call] rest)
    rw [List.foldl_cons,List.foldl_cons,sequenced.perform_alike same]
    exact ih (perform_sequenced call sequenced before after) fun earlier short =>
      fits (call :: earlier) (List.cons_prefix_cons.mpr ⟨rfl,short⟩)

end orders

/-- In every state that any calls reach no two pending transactions share sender and nonce, so
that neither the block's transactions nor a rebuild depend on the order in which the maps are
visited, in this call or in any before it. -/
theorem orders_irrelevant {ext : Externals} (state : StateManager) (calls calls' : List Call)
    (alike : List.Forall₂ Call.Alike calls calls')
    (fits : ∀ earlier, earlier <+: calls → NoncesFit (performs ext state earlier).2.transactions) :
    let now := performs ext state calls
    (now.2.transactions.map fun tx => (tx.sender,tx.nonce)).Nodup ∧
    performs ext state calls' = now ∧
    ∀ order order' : IterationOrder,
      (∀ maxCount, now.2.getTransactionsForBlock order maxCount =
        now.2.getTransactionsForBlock order' maxCount) ∧
      now.2.revalidate ext order now.1 = now.2.revalidate ext order' now.1 := by
  intro now
  have sequenced : Sequenced ext now.2 := performs_sequenced state calls fits
  refine ⟨sequenced.nodup,(empty_sequenced ext).performs_alike alike fits,fun order order' => ⟨?_,?_⟩⟩
  · intro maxCount
    rw [getTransactionsForBlock,getTransactionsForBlock,sequenced.sorted order order']
  · exact sequenced.revalidate_eq now.1 order order'

/-- A loop that visits the map backwards. -/
def backwards : IterationOrder := ⟨List.reverse,List.reverse_perm⟩

open Reference in
/-- Two payments are pending; the pool is rebuilt in one order or the other. -/
theorem orders_irrelevant_payments :
    let state := StateManager.create ((∅ : AddressMap UInt64).insert validatorAddress 10)
    let calls := [Call.addTransaction payment,.addTransaction secondPayment,.revalidate stored]
    let calls' := [Call.addTransaction payment,.addTransaction secondPayment,.revalidate backwards]
    let now := performs libraries state calls
    now.2.transactions.length = 2 ∧ performs libraries state calls' = now ∧
      now.2.getTransactionsForBlock stored 1 = now.2.getTransactionsForBlock backwards 1 ∧
      now.2.revalidate libraries stored now.1 = now.2.revalidate libraries backwards now.1 := by
  intro state calls calls' now
  have fits : ∀ earlier ∈ calls.inits, NoncesFit (performs libraries state earlier).2.transactions := by
    decide +kernel
  have alike : List.Forall₂ Call.Alike calls calls' :=
    .cons (.addTransaction _) (.cons (.addTransaction _) (.cons (.revalidate _ _) .nil))
  obtain ⟨-,same,orders⟩ := orders_irrelevant state calls calls' alike
    fun earlier short => fits earlier ((List.mem_inits _ _).mpr short)
  exact ⟨by decide +kernel,same,(orders stored backwards).1 1,(orders stored backwards).2⟩

end TitanCore.Mempool
