import Mathlib.Algebra.Order.BigOperators.Group.List
import TitanCore.BlockSelection
import TitanCore.ChainCommitment
import TitanCore.MempoolRevalidate

/-! What a block leaves of the pool: its transactions are removed by their hashes, the ledger
moves on, and the rest is added again. -/
namespace TitanCore.Mempool
open StateManager (sentBy nonceOf Pays)

def cleanup (ext : Externals) (order : IterationOrder) (state : StateManager) (pool : Mempool)
    (block : Block) : Mempool :=
  ((pool.removeMinedTransactions block).revalidate ext order (state.applyBlock block).2).2

/-- Pending transactions of a sender with consecutive nonces from the confirmed one on, which the
confirmed balance covers. -/
def Spendable (state : StateManager) (pool : Mempool) (address : Address) (run : List Transaction) : Prop :=
  GreedyRun.IsRun nonceValue amountValue (state.getNonce address).toNat (state.getBalance address).toNat
    (sentBy address pool.transactions) run

structure LongestSpendable (state : StateManager) (pool : Mempool) (address : Address)
    (run : List Transaction) : Prop where
  isRun : Spendable state pool address run
  longest : ∀ other, Spendable state pool address other → other <+: run

/-- The ledger is past the transaction, or cannot come to it. -/
def Obsolete (state : StateManager) (pool : Mempool) (tx : Transaction) : Prop :=
  nonceValue tx < (state.getNonce tx.sender).toNat ∨
    ∀ run, LongestSpendable state pool tx.sender run → tx ∉ run

/-- A pending transaction that the block names by its hash and the ledger is not past yet. -/
def Names (block : Block) (state : StateManager) (pool : Mempool) (tx : Transaction) : Prop :=
  tx ∈ pool.transactions ∧ tx.hash ∈ block.transactions.map Transaction.hash ∧
    (state.getNonce tx.sender).toNat ≤ nonceValue tx

section feeding
variable {ext : Externals} {state : StateManager} {pool : Mempool} {tx : Transaction}
  {transactions : List Transaction} {address : Address}

theorem mem_addTransactions (member : tx ∈ (pool.addTransactions ext state transactions).transactions) :
    tx ∈ pool.transactions ∨ tx ∈ transactions := by
  induction transactions generalizing pool with
  | nil => exact .inl member
  | cons first rest ih =>
    change tx ∈ ((pool.addTransaction ext state first).2.addTransactions ext state rest).transactions at member
    rcases ih member with held | listed
    · rcases addTransaction_cases ext pool state first with ⟨-,admissible,added⟩ | ⟨-,-,text,unchanged⟩
      · change _ = pool.admission state first at added
        rw [added,transactions_admission admissible.fresh] at held
        rcases List.mem_cons.mp held with rfl | old
        · exact .inr List.mem_cons_self
        · exact .inl old
      · rw [unchanged] at held
        exact .inl held
    · exact .inr (List.mem_cons_of_mem _ listed)

theorem addTransactions_keeps (member : tx ∈ pool.transactions) :
    tx ∈ (pool.addTransactions ext state transactions).transactions := by
  induction transactions generalizing pool with
  | nil => exact member
  | cons first rest ih =>
    change tx ∈ ((pool.addTransaction ext state first).2.addTransactions ext state rest).transactions
    apply ih
    rcases addTransaction_cases ext pool state first with ⟨-,admissible,added⟩ | ⟨-,-,text,unchanged⟩
    · change _ = pool.admission state first at added
      rw [added,transactions_admission admissible.fresh]
      exact List.mem_cons_of_mem _ member
    · rw [unchanged]
      exact member

/-- The rest of a run is one for the pool that took its first transaction. -/
theorem isRun_admission {run : List Transaction} (admissible : Admissible ext pool state tx)
    (later : GreedyRun.IsRun nonceValue amountValue ((pool.getPendingNonce state tx.sender).toNat + 1)
      ((pool.getPendingBalance state tx.sender).toNat - amountValue tx) transactions run) :
    GreedyRun.IsRun nonceValue amountValue ((pool.admission state tx).getPendingNonce state tx.sender).toNat
      ((pool.admission state tx).getPendingBalance state tx.sender).toNat transactions run := by
  cases run with
  | nil => exact .nil _ _ _
  | cons second run =>
    have at_next := congrArg UInt64.toNat admissible.nonce
    have next : (tx.nonce + 1).toNat = (pool.getPendingNonce state tx.sender).toNat + 1 := by
      have small := second.nonce.toNat_lt
      have at_second := later.uncons.1
      unfold nonceValue at at_second
      rw [UInt64.toNat_add,at_next]
      change (_ + 1) % 2 ^ 64 = _
      exact Nat.mod_eq_of_lt (by omega)
    rw [getPendingNonce_admission_self,getPendingBalance_admission_self,next,
      UInt64.toNat_sub_of_le _ _ admissible.funded]
    exact later

/-- Fed in the order of their nonces, the transactions of a run are all taken. A nonce may wrap
after the last of them, so this needs no bound. -/
theorem addTransactions_takes {run : List Transaction} (account : state.accountExists address = true)
    (verified : ∀ tx ∈ transactions, verifyTransaction ext tx = true)
    (fresh : ∀ tx ∈ transactions, pool.pending.lookup tx.hash = none)
    (distinct : (transactions.map Transaction.hash).Nodup)
    (ascending : (sentBy address transactions).Pairwise fun a b => nonceValue a < nonceValue b)
    (isRun : GreedyRun.IsRun nonceValue amountValue (pool.getPendingNonce state address).toNat
      (pool.getPendingBalance state address).toNat (sentBy address transactions) run) :
    ∀ tx ∈ run, tx ∈ (pool.addTransactions ext state transactions).transactions := by
  induction transactions generalizing pool run with
  | nil =>
    intro tx member
    exact absurd (isRun.member tx member) List.not_mem_nil
  | cons first rest ih =>
    rw [List.forall_mem_cons] at verified fresh
    rw [List.map_cons,List.nodup_cons] at distinct
    obtain ⟨apart,distinct⟩ := distinct
    obtain ⟨good,verified⟩ := verified
    obtain ⟨absent,fresh⟩ := fresh
    change ∀ tx ∈ run, tx ∈ ((pool.addTransaction ext state first).2.addTransactions ext state rest).transactions
    by_cases self : address = first.sender
    · subst self
      rw [sentBy_self] at ascending isRun
      obtain ⟨above,ascending⟩ := List.pairwise_cons.mp ascending
      cases run with
      | nil => exact List.forall_mem_nil _
      | cons head run =>
        obtain ⟨at_next,affordable,-⟩ := isRun.uncons
        rcases isRun.choose above with ⟨rfl,later⟩ | ⟨below,later⟩
        · have admissible : Admissible ext pool state head :=
            ⟨good,absent,account,UInt64.toNat.inj at_next,UInt64.le_iff_toNat_le.mpr affordable⟩
          rw [addTransaction_admission admissible]
          refine List.forall_mem_cons.mpr ⟨addTransactions_keeps ?_,?_⟩
          · rw [transactions_admission admissible.fresh]
            exact List.mem_cons_self
          · exact ih verified (fresh_admission apart fresh) distinct ascending (isRun_admission admissible later)
        · -- the nonce of `first` is past
          rcases addTransaction_cases ext pool state first with ⟨-,admissible,-⟩ | ⟨-,-,text,unchanged⟩
          · have admitted := congrArg UInt64.toNat admissible.nonce
            unfold nonceValue at below
            omega
          · rw [unchanged]
            let marked : Mempool := { pool with lastError := text }
            have unheld : ∀ other ∈ rest, marked.pending.lookup other.hash = none := fresh
            exact ih verified unheld distinct ascending later
    · rw [sentBy_other self] at ascending isRun
      rcases addTransaction_cases ext pool state first with ⟨-,admissible,added⟩ | ⟨-,-,text,unchanged⟩
      · change _ = pool.admission state first at added
        rw [added]
        refine ih verified (fresh_admission apart fresh) distinct ascending ?_
        rw [getPendingNonce_admission_other self,getPendingBalance_admission_other self]
        exact isRun
      · rw [unchanged]
        let marked : Mempool := { pool with lastError := text }
        have unheld : ∀ other ∈ rest, marked.pending.lookup other.hash = none := fresh
        exact ih verified unheld distinct ascending isRun

end feeding

section nonces
variable {ext : Externals} {state : StateManager} {pool : Mempool}

theorem pendingOf_eq (pool : Mempool) (address : Address) :
    pool.pendingOf address = (sentBy address pool.transactions : Multiset Transaction) :=
  Multiset.filter_coe _ _

theorem mem_sentBy {address : Address} {transactions : List Transaction} {tx : Transaction} :
    tx ∈ sentBy address transactions ↔ tx ∈ transactions ∧ tx.sender = address := by
  rw [sentBy,List.mem_filter,decide_eq_true_eq]

theorem card_pendingOf_le (pool : Mempool) (address : Address) :
    (pool.pendingOf address).card ≤ pool.size := by
  rw [pendingOf_eq,Multiset.coe_card]
  exact List.length_filter_le _ _

/-- The place of a pending transaction in its sender's sequence. -/
theorem Consistent.offset (consistent : Consistent ext state pool) {address : Address} {tx : Transaction}
    (sent : tx ∈ sentBy address pool.transactions) : ∃ i < (pool.pendingOf address).card,
      nonceValue tx = ((state.getNonce address).toNat + i) % 2 ^ 64 := by
  have pending : tx ∈ pool.pendingOf address := by rwa [pendingOf_eq]
  have numbered := Multiset.mem_map_of_mem Transaction.nonce pending
  rw [consistent.nonces,nonceRun] at numbered
  obtain ⟨i,inside,nonce⟩ := Multiset.mem_map.mp numbered
  refine ⟨i,Multiset.mem_range.mp inside,?_⟩
  rw [nonceValue,← nonce,UInt64.toNat_add,UInt64.toNat_ofNat',Nat.add_mod_mod]

theorem Consistent.at_offset (consistent : Consistent ext state pool) {address : Address} {i : Nat}
    (inside : i < (pool.pendingOf address).card) : ∃ tx ∈ sentBy address pool.transactions,
      nonceValue tx = ((state.getNonce address).toNat + i) % 2 ^ 64 := by
  have numbered := Multiset.mem_map_of_mem (fun i => state.getNonce address + UInt64.ofNat i)
    (Multiset.mem_range.mpr inside)
  rw [← nonceRun,← consistent.nonces] at numbered
  obtain ⟨tx,pending,nonce⟩ := Multiset.mem_map.mp numbered
  refine ⟨tx,by rwa [pendingOf_eq] at pending,?_⟩
  rw [nonceValue,nonce,UInt64.toNat_add,UInt64.toNat_ofNat',Nat.add_mod_mod]

/-- With fewer than 2^64 pending transactions no two of a sender share their nonce. -/
theorem Consistent.distinct (consistent : Consistent ext state pool) (small : pool.size < 2 ^ 64) :
    ∀ tx ∈ pool.transactions, ∀ other ∈ pool.transactions, tx.sender = other.sender →
      tx.nonce = other.nonce → tx = other := by
  intro tx member other member' senders nonces
  have apart : ((pool.pendingOf tx.sender).map Transaction.nonce).Nodup := by
    have few := card_pendingOf_le pool tx.sender
    rw [consistent.nonces]
    exact Multiset.coe_nodup.mpr (StateManager.nonceList_nodup _ (by omega))
  rw [pendingOf_eq] at apart
  exact Multiset.inj_on_of_nodup_map apart tx (mem_sentBy.mpr ⟨member,rfl⟩) other
    (mem_sentBy.mpr ⟨member',senders.symm⟩) nonces

/-- Between blocks a sender's longest run reaches every pending transaction that the ledger is not
past. -/
theorem Consistent.reaches (consistent : Consistent ext state pool) (small : pool.size < 2 ^ 64)
    {tx : Transaction} (pending : tx ∈ pool.transactions)
    (current : (state.getNonce tx.sender).toNat ≤ nonceValue tx) :
    ∃ run, LongestSpendable state pool tx.sender run ∧ tx ∈ run := by
  let sorted := sentBy tx.sender (sortTransactions (stored.visit pool.transactions))
  have same : sorted.Perm (sentBy tx.sender pool.transactions) := (sorted_perm stored pool).filter _
  have ascending : sorted.Pairwise fun a b => nonceValue a < nonceValue b :=
    Filed.ascending consistent.verified (consistent.distinct small) stored tx.sender
  let longest := GreedyRun.greedy nonceValue amountValue (state.getNonce tx.sender).toNat
    (state.getBalance tx.sender).toNat sorted
  have isLongest : LongestSpendable state pool tx.sender longest :=
    ⟨(GreedyRun.greedy_isRun _ _ sorted).mono fun _ member => same.mem_iff.mp member,
      fun other isRun => GreedyRun.greedy_longest ascending
        (isRun.mono fun _ member => same.mem_iff.mpr member)⟩
  -- the transactions that the ledger is not past are a run of their own
  let rest := sorted.filter fun other => (state.getNonce tx.sender).toNat ≤ nonceValue other
  have few := card_pendingOf_le pool tx.sender
  have isRun : Spendable state pool tx.sender rest := by
    refine ⟨fun other member => same.mem_iff.mp (List.mem_of_mem_filter member),?_,?_⟩
    · have counted : (rest.map nonceValue).length = rest.length := List.length_map nonceValue
      rw [← counted]
      refine GreedyRun.consecutive_of_closed (List.pairwise_map.mpr (ascending.filter _)) ?_ ?_
      · intro k member
        obtain ⟨other,kept,rfl⟩ := List.mem_map.mp member
        exact of_decide_eq_true (List.mem_filter.mp kept).2
      · intro k member j low high
        obtain ⟨other,kept,rfl⟩ := List.mem_map.mp member
        obtain ⟨i,inside,value⟩ := consistent.offset (same.mem_iff.mp (List.mem_of_mem_filter kept))
        have bounded := (state.getNonce tx.sender).toNat_lt
        have atLeast : (state.getNonce tx.sender).toNat ≤ nonceValue other :=
          of_decide_eq_true (List.mem_filter.mp kept).2
        have inRange : j - (state.getNonce tx.sender).toNat < (pool.pendingOf tx.sender).card := by omega
        obtain ⟨found,sent,value'⟩ := consistent.at_offset inRange
        have at_j : nonceValue found = j := by omega
        refine List.mem_map.mpr ⟨found,List.mem_filter.mpr ⟨same.mem_iff.mpr sent,?_⟩,at_j⟩
        exact decide_eq_true (by omega)
    · have balance := consistent.balance tx.sender
      have part : (rest.map amountValue).sum ≤ (sorted.map amountValue).sum :=
        ((List.filter_sublist (l := sorted)).map amountValue).sum_le_sum fun _ _ => Nat.zero_le _
      rw [pendingOf_eq,amountSum,← Multiset.coe_eq_coe.mpr same,Multiset.map_coe,Multiset.sum_coe] at balance
      change _ + (sorted.map amountValue).sum = _ at balance
      omega
  refine ⟨longest,isLongest,(isLongest.longest rest isRun).subset (List.mem_filter.mpr ⟨?_,?_⟩)⟩
  · exact same.mem_iff.mpr (mem_sentBy.mpr ⟨pending,rfl⟩)
  · exact decide_eq_true current

end nonces

section cleanup
variable {ext : Externals} {state : StateManager} {pool : Mempool} {block : Block}
  {order : IterationOrder}

theorem Filed.mem_removeMined (filed : Filed ext pool) {tx : Transaction} :
    tx ∈ (pool.removeMinedTransactions block).transactions ↔
      tx ∈ pool.transactions ∧ tx.hash ∉ block.transactions.map Transaction.hash := by
  rw [(filed.removeMined block).mem,filed.mem,lookup_removeMined]
  split
  · next named => simp [named]
  · next unnamed => simp [unnamed]

theorem Filed.mem_cleanup (filed : Filed ext pool) {tx : Transaction}
    (member : tx ∈ (pool.cleanup ext order state block).transactions) :
    tx.hash ∉ block.transactions.map Transaction.hash := by
  rcases mem_addTransactions member with impossible | fed
  · exact absurd impossible List.not_mem_nil
  · exact (filed.mem_removeMined.mp ((sorted_perm order _).mem_iff.mp fed)).2

theorem accountExists_applyBlock {address : Address} (held : state.accountExists address = true) :
    (state.applyBlock block).2.accountExists address = true := by
  have inside : address ∈ state.accounts := Finmap.lookup_isSome.mp held
  apply Finmap.lookup_isSome.mpr
  rcases StateManager.applyBlock_cases state block with ⟨-,pays⟩ | ⟨-,same,-⟩
  · exact pays.keeps_account inside
  · rw [same]
    exact inside

/-- A run the new ledger pays stays whole, unless the block names one of it. -/
theorem Consistent.cleanup_takes (consistent : Consistent ext state pool) (small : pool.size < 2 ^ 64)
    {address : Address} {run : List Transaction}
    (isRun : Spendable (state.applyBlock block).2 pool address run)
    (unnamed : ∀ tx ∈ run, tx.hash ∉ block.transactions.map Transaction.hash) :
    ∀ tx ∈ run, tx ∈ (pool.cleanup ext order state block).transactions := by
  intro tx member
  have filed : Filed ext pool := consistent.verified
  have left : ∀ other ∈ run, other ∈ sentBy address (pool.removeMinedTransactions block).transactions := by
    intro other inside
    obtain ⟨pending,sender⟩ := mem_sentBy.mp (isRun.member other inside)
    exact mem_sentBy.mpr ⟨filed.mem_removeMined.mpr ⟨pending,unnamed other inside⟩,sender⟩
  have account : (state.applyBlock block).2.accountExists address = true := by
    apply accountExists_applyBlock
    apply consistent.account
    rw [pendingOf_eq]
    exact fun none_sent => List.ne_nil_of_mem (isRun.member tx member) ((Multiset.coe_eq_zero _).mp none_sent)
  have same := sorted_perm order (pool.removeMinedTransactions block)
  refine addTransactions_takes account (fun other fed => ?_) (fun _ _ => rfl)
    ((same.map _).nodup_iff.mpr (filed.removeMined block).hashes_nodup)
    ((filed.removeMined block).ascending ?_ order address) ?_ tx member
  · obtain ⟨hash,held⟩ := mem_transactions.mp (same.mem_iff.mp fed)
    exact (filed.removeMined block hash other held).2
  · exact fun a first b second => consistent.distinct small a (Mempool.mem_removeMined first) b
      (Mempool.mem_removeMined second)
  · rw [getPendingNonce_empty,getPendingBalance_empty]
    exact ⟨fun other inside => (same.filter _).mem_iff.mpr (left other inside),isRun.keys,isRun.covered⟩

/-- What a payable block confirms is in no run of the new ledger, even if the sender's nonces
wrapped: a run down to it would then hold 2^64 nonces. -/
theorem Consistent.confirmed (consistent : Consistent ext state pool) (small : pool.size < 2 ^ 64)
    (short : block.transactions.length < 2 ^ 64) {final : Accounts}
    (pays : Pays state.accounts block.transactions final) {tx : Transaction}
    (mined : tx.nonce ∈ (sentBy tx.sender block.transactions).map Transaction.nonce)
    {run : List Transaction} (isRun : Spendable (state.applyBlock block).2 pool tx.sender run) : tx ∉ run := by
  intro member
  obtain ⟨nonces,after⟩ := pays.numbered tx.sender
  rw [nonces,StateManager.nonceList] at mined
  obtain ⟨i,inside,nonce⟩ := List.mem_map.mp mined
  have counted := List.length_filter_le (fun t : Transaction => decide (t.sender = tx.sender)) block.transactions
  have settled := (StateManager.applyBlock_pays pays).2
  have value : nonceValue tx = ((state.getNonce tx.sender).toNat + i) % 2 ^ 64 := by
    rw [nonceValue,← nonce,UInt64.toNat_add,UInt64.toNat_ofNat',Nat.add_mod_mod,StateManager.getNonce_eq]
  have next : ((state.applyBlock block).2.getNonce tx.sender).toNat =
      ((state.getNonce tx.sender).toNat + (sentBy tx.sender block.transactions).length) % 2 ^ 64 := by
    rw [StateManager.getNonce_eq,settled,after,UInt64.toNat_add,UInt64.toNat_ofNat',Nat.add_mod_mod,
      StateManager.getNonce_eq]
  have low := isRun.le_key member
  have bounded := (state.getNonce tx.sender).toNat_lt
  have placed := List.mem_range.mp inside
  have few := card_pendingOf_le pool tx.sender
  change (sentBy tx.sender block.transactions).length ≤ _ at counted
  -- the run holds the nonce before the old one
  obtain ⟨found,inRun,last⟩ := isRun.exists_key member (k := (state.getNonce tx.sender).toNat - 1)
    (by omega) (by omega)
  obtain ⟨j,numbered,value'⟩ := consistent.offset (isRun.member found inRun)
  omega

theorem Consistent.of_accounts {other : StateManager} (consistent : Consistent ext state pool)
    (same : other.accounts = state.accounts) : Consistent ext other pool := by
  obtain ⟨accounts,error⟩ := other
  obtain rfl : accounts = state.accounts := same
  exact ⟨consistent.nonces,consistent.nextNonce,consistent.balance,consistent.account,consistent.verified⟩

/-- Everything a block drops is obsolete exactly when the ledger takes the block, or the block names
nothing that is still pending for the ledger. -/
theorem Consistent.cleanup_obsolete_iff (consistent : Consistent ext state pool)
    (small : pool.size < 2 ^ 64) (short : block.transactions.length < 2 ^ 64)
    (verified : ∀ tx ∈ block.transactions, verifyTransaction ext tx = true)
    (free : ¬ Collision ext (pool.transactions.map (transactionPreimage ext))
      (block.transactions.map (transactionPreimage ext))) :
    (∀ tx ∈ pool.transactions, tx ∉ (pool.cleanup ext order state block).transactions →
      Obsolete (state.applyBlock block).2 pool tx) ↔
    (∃ final, Pays state.accounts block.transactions final) ∨ ∀ tx, ¬ Names block state pool tx := by
  have filed : Filed ext pool := consistent.verified
  constructor
  · intro fine
    by_contra wrong
    rw [not_or,not_forall] at wrong
    obtain ⟨unpayable,tx,named⟩ := wrong
    obtain ⟨pending,mined,current⟩ := not_not.mp named
    have same : (state.applyBlock block).2.accounts = state.accounts := by
      rcases StateManager.applyBlock_cases state block with ⟨-,pays⟩ | ⟨-,same,-⟩
      · exact absurd ⟨_,pays⟩ unpayable
      · exact same
    have current' : ((state.applyBlock block).2.getNonce tx.sender).toNat ≤ nonceValue tx := by
      rwa [StateManager.getNonce_eq,same,← StateManager.getNonce_eq]
    obtain ⟨run,longest,member⟩ := (consistent.of_accounts same).reaches small pending current'
    rcases fine tx pending fun stays => filed.mem_cleanup stays mined with past | outside
    · omega
    · exact outside run longest member
  · intro fine tx pending dropped
    by_contra needed
    rw [Obsolete,not_or,not_forall] at needed
    obtain ⟨current,run,needed⟩ := needed
    obtain ⟨longest,member⟩ := Classical.not_imp.mp needed
    refine dropped (consistent.cleanup_takes small longest.isRun (fun other inside mined => ?_) tx
      (not_not.mp member))
    obtain ⟨waiting,sender⟩ := mem_sentBy.mp (longest.isRun.member other inside)
    rw [← sender] at longest
    rcases StateManager.applyBlock_cases state block with ⟨-,pays⟩ | ⟨-,same,unpayable⟩
    · -- the block holds this very transaction, so the ledger is past it
      obtain ⟨paid,listed,hash⟩ := List.mem_map.mp mined
      obtain ⟨key,held⟩ := mem_transactions.mp waiting
      have content := Transaction.sameContent (verified paid listed) (filed key other held).2 hash
        fun digest => (digest_injective free (List.mem_map_of_mem waiting) (List.mem_map_of_mem listed)
          digest.symm).symm
      have senders : paid.sender = other.sender := (Transaction.mk.inj content).1
      have nonces : paid.nonce = other.nonce := (Transaction.mk.inj content).2.2.2.1
      refine consistent.confirmed small short pays ?_ longest.isRun inside
      rw [← nonces]
      exact List.mem_map_of_mem (mem_sentBy.mpr ⟨listed,senders⟩)
    · have unnamed := fine.resolve_left fun ⟨final,pays⟩ => unpayable final pays
      have low := longest.isRun.le_key inside
      rw [StateManager.getNonce_eq,same,← StateManager.getNonce_eq] at low
      exact unnamed other ⟨waiting,mined,low⟩

end cleanup
end TitanCore.Mempool
