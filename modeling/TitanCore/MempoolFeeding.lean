import TitanCore.GreedyRun
import TitanCore.MempoolConsistency
import TitanCore.StateReplay

/-! Feeding a list of transactions to a pool, as one sender sees it, and the rebuild of a pool
from its sorted transactions. Senders do not interfere, whatever order the pool is visited in. -/
namespace TitanCore.Mempool
open StateManager (sentBy)

def nonceValue (tx : Transaction) : Nat := tx.nonce.toNat
def amountValue (tx : Transaction) : Nat := tx.amount.toNat

/-- No nonce wraps when the next one is computed. -/
def NoncesFit (transactions : List Transaction) : Prop := ∀ tx ∈ transactions, nonceValue tx + 1 < 2 ^ 64

/-- What a pool takes of the transactions of one sender, in the order they come. -/
def taken (pool : Mempool) (state : StateManager) (address : Address) (transactions : List Transaction) :
    List Transaction :=
  if state.accountExists address then
    GreedyRun.greedy nonceValue amountValue (pool.getPendingNonce state address).toNat
      (pool.getPendingBalance state address).toNat (sentBy address transactions)
  else []

structure Feeds (state : StateManager) (before after : Mempool) (address : Address)
    (run : List Transaction) : Prop where
  pending : after.pendingOf address = before.pendingOf address + (run : Multiset Transaction)
  nonce : (after.getPendingNonce state address).toNat =
    (before.getPendingNonce state address).toNat + run.length
  balance : (after.getPendingBalance state address).toNat + (run.map amountValue).sum =
    (before.getPendingBalance state address).toNat

theorem Feeds.nil (state : StateManager) (pool : Mempool) (address : Address) :
    Feeds state pool pool address [] :=
  ⟨(add_zero _).symm,rfl,rfl⟩

theorem sentBy_self (tx : Transaction) (rest : List Transaction) :
    sentBy tx.sender (tx :: rest) = tx :: sentBy tx.sender rest :=
  List.filter_cons_of_pos (by simp)

theorem sentBy_other {tx : Transaction} {address : Address} (other : address ≠ tx.sender)
    (rest : List Transaction) : sentBy address (tx :: rest) = sentBy address rest :=
  List.filter_cons_of_neg (by simpa using Ne.symm other)

section feeding
variable {ext : Externals} {state : StateManager} {pool : Mempool} {tx : Transaction}
  {rest : List Transaction} {address : Address}

theorem taken_other (other : address ≠ tx.sender) :
    pool.taken state address (tx :: rest) = pool.taken state address rest := by
  rw [taken,taken,sentBy_other other]

/-- An admitted transaction leads its sender's run. -/
theorem taken_admission (admissible : Admissible ext pool state tx) (fits : nonceValue tx + 1 < 2 ^ 64) :
    pool.taken state tx.sender (tx :: rest) =
      tx :: (pool.admission state tx).taken state tx.sender rest := by
  have at_next : nonceValue tx = (pool.getPendingNonce state tx.sender).toNat :=
    congrArg UInt64.toNat admissible.nonce
  have next : (tx.nonce + 1).toNat = (pool.getPendingNonce state tx.sender).toNat + 1 := by
    rw [← at_next,UInt64.toNat_add]
    exact Nat.mod_eq_of_lt fits
  have covered := UInt64.le_iff_toNat_le.mp admissible.funded
  rw [taken,taken,if_pos admissible.account,if_pos admissible.account,sentBy_self,GreedyRun.greedy,
    if_pos ⟨at_next,covered⟩,getPendingNonce_admission_self,getPendingBalance_admission_self,next,
    UInt64.toNat_sub_of_le _ _ admissible.funded]
  rfl

theorem taken_admission_other (other : address ≠ tx.sender) :
    (pool.admission state tx).taken state address rest = pool.taken state address rest := by
  rw [taken,taken,getPendingNonce_admission_other other,getPendingBalance_admission_other other]

theorem taken_refused (verified : verifyTransaction ext tx = true)
    (fresh : pool.pending.lookup tx.hash = none) (refused : ¬ Admissible ext pool state tx) :
    pool.taken state tx.sender (tx :: rest) = pool.taken state tx.sender rest := by
  by_cases account : state.accountExists tx.sender = true
  · have outside : ¬ (nonceValue tx = (pool.getPendingNonce state tx.sender).toNat ∧
        amountValue tx ≤ (pool.getPendingBalance state tx.sender).toNat) := fun inside =>
      refused ⟨verified,fresh,account,UInt64.toNat.inj inside.1,UInt64.le_iff_toNat_le.mpr inside.2⟩
    rw [taken,taken,if_pos account,if_pos account,sentBy_self,GreedyRun.greedy,if_neg outside]
  · rw [taken,taken,if_neg account,if_neg account]

theorem Feeds.admission {run : List Transaction} (admissible : Admissible ext pool state tx)
    (fits : nonceValue tx + 1 < 2 ^ 64) {after : Mempool}
    (feeds : Feeds state (pool.admission state tx) after tx.sender run) :
    Feeds state pool after tx.sender (tx :: run) := by
  have at_next : nonceValue tx = (pool.getPendingNonce state tx.sender).toNat :=
    congrArg UInt64.toNat admissible.nonce
  have next : (tx.nonce + 1).toNat = nonceValue tx + 1 := by
    rw [UInt64.toNat_add]
    exact Nat.mod_eq_of_lt fits
  have covered := UInt64.le_iff_toNat_le.mp admissible.funded
  constructor
  · rw [feeds.pending,pendingOf_admission_self admissible.fresh,← Multiset.cons_coe,
      Multiset.cons_add,Multiset.add_cons]
  · rw [feeds.nonce,getPendingNonce_admission_self,next,at_next,List.length_cons]
    omega
  · have rest := feeds.balance
    rw [getPendingBalance_admission_self,UInt64.toNat_sub_of_le _ _ admissible.funded] at rest
    rw [List.map_cons,List.sum_cons]
    change _ + (tx.amount.toNat + _) = _
    omega

theorem Feeds.admission_other {run : List Transaction} (admissible : Admissible ext pool state tx)
    (other : address ≠ tx.sender) {after : Mempool}
    (feeds : Feeds state (pool.admission state tx) after address run) :
    Feeds state pool after address run := by
  refine ⟨?_,?_,?_⟩
  · rw [feeds.pending,pendingOf_admission_other admissible.fresh other]
  · rw [feeds.nonce,getPendingNonce_admission_other other]
  · rw [feeds.balance,getPendingBalance_admission_other other]

/-- The other transactions have other hashes, so they stay new to the pool. -/
theorem fresh_admission (apart : tx.hash ∉ rest.map Transaction.hash)
    (fresh : ∀ other ∈ rest, pool.pending.lookup other.hash = none) :
    ∀ other ∈ rest, (pool.admission state tx).pending.lookup other.hash = none := by
  intro other member
  have differ : other.hash ≠ tx.hash := fun same => apart (same ▸ List.mem_map_of_mem member)
  rw [admission,AList.lookup_insert_ne differ]
  exact fresh other member

/-- Feeding a list gives every sender its own run of that list. -/
theorem addTransactions_feeds (transactions : List Transaction)
    (verified : ∀ tx ∈ transactions, verifyTransaction ext tx = true)
    (fresh : ∀ tx ∈ transactions, pool.pending.lookup tx.hash = none)
    (distinct : (transactions.map Transaction.hash).Nodup) (fits : NoncesFit transactions)
    (address : Address) : Feeds state pool (pool.addTransactions ext state transactions) address
      (pool.taken state address transactions) := by
  induction transactions generalizing pool with
  | nil =>
    have none_taken : pool.taken state address [] = [] := by
      unfold taken
      split <;> rfl
    rw [none_taken]
    exact .nil state pool address
  | cons tx rest ih =>
    obtain ⟨apart,distinct⟩ := List.nodup_cons.mp distinct
    obtain ⟨good,verified⟩ := List.forall_mem_cons.mp verified
    obtain ⟨absent,fresh⟩ := List.forall_mem_cons.mp fresh
    obtain ⟨fit,fits⟩ := List.forall_mem_cons.mp fits
    change Feeds state pool ((pool.addTransaction ext state tx).2.addTransactions ext state rest) address _
    rcases addTransaction_cases ext pool state tx with ⟨-,admissible,added⟩ | ⟨-,refused,text,unchanged⟩
    · have still_fresh : ∀ other ∈ rest, (pool.admission state tx).pending.lookup other.hash = none :=
        fresh_admission apart fresh
      have later := ih verified still_fresh distinct fits
      rw [added]
      by_cases self : address = tx.sender
      · subst self
        rw [taken_admission admissible fit]
        exact later.admission admissible fit
      · rw [taken_other self,← taken_admission_other self]
        exact later.admission_other admissible self
    · -- the error text is no part of what a sender sees
      let marked : Mempool := { pool with lastError := text }
      have fed : Feeds state marked (marked.addTransactions ext state rest) address
        (marked.taken state address rest) := ih verified fresh distinct fits
      have later : Feeds state pool (marked.addTransactions ext state rest) address
        (pool.taken state address rest) := ⟨fed.pending,fed.nonce,fed.balance⟩
      rw [unchanged]
      by_cases self : address = tx.sender
      · subst self
        rw [taken_refused good absent refused]
        exact later
      · rw [taken_other self]
        exact later

end feeding

section sorting

theorem precedes_false (a b : Transaction) : precedes b a = false ↔
    Bytes.less a.sender.val b.sender.val = true ∨ a.sender = b.sender ∧ a.nonce ≤ b.nonce := by
  unfold precedes
  by_cases same : b.sender = a.sender
  · rw [if_neg (not_not.mpr same),decide_eq_false_iff_not,UInt64.not_lt,same]
    simp [less_irrefl]
  · rw [if_pos same]
    constructor
    · intro not_less
      rcases less_trichotomy a.sender.val b.sender.val with h | h | h
      · exact .inl h
      · exact absurd (Subtype.ext h).symm same
      · rw [not_less] at h
        cases h
    · rintro (h | ⟨h,-⟩)
      · exact less_asymm h
      · exact absurd h.symm same

instance : Std.Total fun a b : Transaction => precedes b a = false := ⟨fun a b => by
  rw [precedes_false,precedes_false]
  rcases less_trichotomy a.sender.val b.sender.val with h | h | h
  · exact .inl (.inl h)
  · rcases UInt64.le_total a.nonce b.nonce with below | below
    · exact .inl (.inr ⟨Subtype.ext h,below⟩)
    · exact .inr (.inr ⟨(Subtype.ext h).symm,below⟩)
  · exact .inr (.inl h)⟩

instance : IsTrans Transaction fun a b => precedes b a = false := ⟨fun a b c hab hbc => by
  rw [precedes_false] at hab hbc ⊢
  rcases hab with hab | ⟨same,below⟩
  · rcases hbc with hbc | ⟨same',-⟩
    · exact .inl (less_trans hab hbc)
    · exact .inl (same' ▸ hab)
  · rcases hbc with hbc | ⟨same',below'⟩
    · exact .inl (same ▸ hbc)
    · exact .inr ⟨same.trans same',UInt64.le_trans below below'⟩⟩

/-- Among the transactions of one sender the sort is by nonce. -/
theorem sentBy_sorted (transactions : List Transaction) (address : Address) :
    (sentBy address (sortTransactions transactions)).Pairwise fun a b => nonceValue a ≤ nonceValue b := by
  have sorted : (sortTransactions transactions).Pairwise fun a b => precedes b a = false :=
    List.pairwise_insertionSort _ transactions
  rw [sentBy,List.pairwise_filter]
  refine sorted.imp fun {a b} ordered from_a from_b => ?_
  simp only [decide_eq_true_eq] at from_a from_b
  rcases (precedes_false a b).mp ordered with less | ⟨-,below⟩
  · rw [from_a,from_b,less_irrefl] at less
    cases less
  · exact UInt64.le_iff_toNat_le.mp below

/-- Where no two transactions share sender and nonce the sort has one result, whichever order
they come in. -/
theorem sortTransactions_eq {left right : List Transaction} (same : left.Perm right)
    (distinct : ∀ tx ∈ left, ∀ other ∈ left, tx.sender = other.sender → tx.nonce = other.nonce →
      tx = other) : sortTransactions left = sortTransactions right := by
  have sorted : ∀ transactions : List Transaction,
      (sortTransactions transactions).Pairwise fun a b => precedes b a = false :=
    List.pairwise_insertionSort _
  have perm : (sortTransactions left).Perm (sortTransactions right) :=
    ((sortTransactions_perm left).trans same).trans (sortTransactions_perm right).symm
  refine List.Perm.eq_of_pairwise (fun a b in_left in_right ab ba => ?_) (sorted left) (sorted right) perm
  have left_a := (sortTransactions_perm left).mem_iff.mp in_left
  have left_b := same.mem_iff.mpr ((sortTransactions_perm right).mem_iff.mp in_right)
  rw [precedes_false] at ab ba
  rcases ab with less | ⟨sender,below⟩
  · rcases ba with greater | ⟨sender,-⟩
    · rw [less_asymm less] at greater
      cases greater
    · rw [sender,less_irrefl] at less
      cases less
  · rcases ba with greater | ⟨-,above⟩
    · rw [sender,less_irrefl] at greater
      cases greater
    · exact distinct a left_a b left_b sender (UInt64.le_antisymm below above)

end sorting

def Filed (ext : Externals) (pool : Mempool) : Prop :=
  ∀ hash tx, pool.pending.lookup hash = some tx → tx.hash = hash ∧ verifyTransaction ext tx = true

section filed
variable {ext : Externals} {pool : Mempool}

theorem Filed.hashes (filed : Filed ext pool) :
    pool.transactions.map Transaction.hash = pool.pending.keys := by
  simp only [transactions,List.map_map,AList.keys,List.keys]
  apply List.map_congr_left
  rintro ⟨hash,tx⟩ member
  exact (filed hash tx (AList.mem_lookup_iff.mpr member)).1

theorem Filed.hashes_nodup (filed : Filed ext pool) : (pool.transactions.map Transaction.hash).Nodup := by
  rw [filed.hashes]
  exact pool.pending.nodupKeys

theorem Filed.lookup (filed : Filed ext pool) {hash : Hash} {tx : Transaction} :
    pool.pending.lookup hash = some tx ↔ tx ∈ pool.transactions ∧ tx.hash = hash := by
  constructor
  · intro held
    exact ⟨mem_transactions.mpr ⟨hash,held⟩,(filed hash tx held).1⟩
  · rintro ⟨member,rfl⟩
    obtain ⟨hash,held⟩ := mem_transactions.mp member
    rwa [(filed hash tx held).1]

theorem Filed.mem (filed : Filed ext pool) (tx : Transaction) :
    tx ∈ pool.transactions ↔ pool.pending.lookup tx.hash = some tx := by
  rw [filed.lookup,and_iff_left rfl]

theorem Filed.admission {state : StateManager} {tx : Transaction} (filed : Filed ext pool)
    (admissible : Admissible ext pool state tx) : Filed ext (pool.admission state tx) := by
  intro hash found held
  by_cases self : hash = tx.hash
  · subst self
    simp only [Mempool.admission,AList.lookup_insert,Option.some.injEq] at held
    subst held
    exact ⟨rfl,admissible.verified⟩
  · rw [Mempool.admission,AList.lookup_insert_ne self] at held
    exact filed hash found held

theorem Filed.addTransactions {state : StateManager} (filed : Filed ext pool)
    (transactions : List Transaction) : Filed ext (pool.addTransactions ext state transactions) := by
  induction transactions generalizing pool with
  | nil => exact filed
  | cons tx rest ih =>
    change Filed ext ((pool.addTransaction ext state tx).2.addTransactions ext state rest)
    rcases addTransaction_cases ext pool state tx with ⟨-,admissible,added⟩ | ⟨-,-,text,unchanged⟩
    · rw [added]
      exact ih (filed.admission admissible)
    · rw [unchanged]
      exact ih filed

theorem Filed.revalidate (order : IterationOrder) (pool : Mempool) (state : StateManager) :
    Filed ext (pool.revalidate ext order state).2 := by
  apply Filed.addTransactions
  intro hash tx held
  simp [empty] at held

end filed

theorem transactions_le {before after : Mempool}
    (each : ∀ address, after.pendingOf address ≤ before.pendingOf address) :
    (after.transactions : Multiset Transaction) ≤ before.transactions := by
  rw [Multiset.le_iff_count]
  intro tx
  have count := Multiset.le_iff_count.mp (each tx.sender) tx
  rwa [pendingOf,pendingOf,Multiset.count_filter_of_pos (p := fun t : Transaction => t.sender = tx.sender) rfl,
    Multiset.count_filter_of_pos (p := fun t : Transaction => t.sender = tx.sender) rfl] at count

theorem transactions_eq {before after : Mempool}
    (each : ∀ address, after.pendingOf address = before.pendingOf address) :
    (after.transactions : Multiset Transaction) = before.transactions :=
  le_antisymm (transactions_le fun address => (each address).le)
    (transactions_le fun address => (each address).ge)

def kept (order : IterationOrder) (pool : Mempool) (state : StateManager) (address : Address) :
    List Transaction :=
  empty.taken state address (sortTransactions (order.visit pool.transactions))

section rebuild
variable {ext : Externals} {pool : Mempool} {state : StateManager}

theorem sorted_perm (order : IterationOrder) (pool : Mempool) :
    (sortTransactions (order.visit pool.transactions)).Perm pool.transactions :=
  (sortTransactions_perm _).trans (order.complete _)

theorem sentBy_sorted_perm (order : IterationOrder) (pool : Mempool) (address : Address) :
    ((sentBy address (sortTransactions (order.visit pool.transactions)) : List Transaction) :
      Multiset Transaction) = pool.pendingOf address := by
  rw [pendingOf,Multiset.filter_coe]
  exact Multiset.coe_eq_coe.mpr ((sorted_perm order pool).filter _)

theorem revalidate_feeds (filed : Filed ext pool) (fits : NoncesFit pool.transactions)
    (order : IterationOrder) (address : Address) :
    Feeds state empty (pool.revalidate ext order state).2 address (pool.kept order state address) := by
  have same := sorted_perm order pool
  apply addTransactions_feeds
  · intro tx member
    obtain ⟨hash,held⟩ := mem_transactions.mp (same.mem_iff.mp member)
    exact (filed hash tx held).2
  · intro tx _
    rfl
  · exact (same.map _).nodup_iff.mpr filed.hashes_nodup
  · exact fun tx member => fits tx (same.mem_iff.mp member)

theorem pendingOf_revalidate (filed : Filed ext pool) (fits : NoncesFit pool.transactions)
    (order : IterationOrder) (address : Address) :
    (pool.revalidate ext order state).2.pendingOf address =
      (pool.kept order state address : Multiset Transaction) := by
  rw [(revalidate_feeds filed fits order address).pending,pendingOf_empty,zero_add]

/-- The account covers all of a sender's pending transactions, in the order of their nonces. -/
structure Covered (state : StateManager) (pool : Mempool) (address : Address) : Prop where
  nonces : (pool.pendingOf address).map nonceValue =
    ((List.range' (state.getNonce address).toNat (pool.pendingOf address).card : List Nat) : Multiset Nat)
  balance : amountSum (pool.pendingOf address) ≤ (state.getBalance address).toNat
  account : pool.pendingOf address ≠ 0 → state.accountExists address = true

/-- Sorted by nonce, the covered transactions are a run from the confirmed nonce on. -/
theorem Covered.sorted {address : Address} (covered : Covered state pool address)
    (order : IterationOrder) : GreedyRun.IsRun nonceValue amountValue (state.getNonce address).toNat
      (state.getBalance address).toNat (sentBy address (sortTransactions (order.visit pool.transactions)))
      (sentBy address (sortTransactions (order.visit pool.transactions))) := by
  have whole := sentBy_sorted_perm order pool address
  refine ⟨fun _ member => member,?_,?_⟩
  · have nonces := covered.nonces
    rw [← whole,Multiset.map_coe,Multiset.coe_eq_coe,Multiset.coe_card] at nonces
    have sorted := List.pairwise_map.mpr (sentBy_sorted (order.visit pool.transactions) address)
    exact nonces.eq_of_pairwise (fun _ _ _ _ => Nat.le_antisymm) sorted
      ((List.pairwise_lt_range' 1).imp Nat.le_of_lt)
  · have balance := covered.balance
    rwa [← whole,amountSum,Multiset.map_coe,Multiset.sum_coe] at balance

theorem Covered.kept {address : Address} (covered : Covered state pool address) (order : IterationOrder) :
    (pool.kept order state address : Multiset Transaction) = pool.pendingOf address := by
  have run := covered.sorted order
  rw [Mempool.kept,taken]
  split
  · rw [getPendingNonce_empty,getPendingBalance_empty,GreedyRun.greedy_eq_self run.keys run.covered,
      sentBy_sorted_perm]
  · next absent =>
    symm
    by_contra some_pending
    exact absent (covered.account some_pending)

theorem revalidate_keeps (filed : Filed ext pool) (fits : NoncesFit pool.transactions)
    (covered : ∀ address, Covered state pool address) (order : IterationOrder) :
    (pool.revalidate ext order state).1 = 0 ∧
    (∀ address, (pool.revalidate ext order state).2.pendingOf address = pool.pendingOf address) ∧
    ∀ hash, (pool.revalidate ext order state).2.pending.lookup hash = pool.pending.lookup hash := by
  have each : ∀ address,
      (pool.revalidate ext order state).2.pendingOf address = pool.pendingOf address := by
    intro address
    rw [pendingOf_revalidate filed fits,(covered address).kept]
  have members := Multiset.coe_eq_coe.mp (transactions_eq each)
  refine ⟨?_,each,fun hash => ?_⟩
  · have count := members.length_eq
    have visited := (order.complete pool.transactions).length_eq
    change (order.visit pool.transactions).length - (pool.revalidate ext order state).2.transactions.length = 0
    omega
  · ext tx
    rw [(Filed.revalidate order pool state).lookup,filed.lookup,members.mem_iff]

end rebuild
end TitanCore.Mempool
