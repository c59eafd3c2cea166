import TitanCore.Execution
import TitanCore.Liveness
import TitanCore.NodeCleanup

/-! How long a pending transaction waits. A node that makes a block and leaves the transaction out
puts a full hundred before it, none of them twice; so it waits for no more of its node's turns than
there are rivals by the hundred. -/
namespace TitanCore
open Mempool (nonceValue NoncesFit precedes_false)
open StateManager (nonceOf Pays)

namespace StateManager
variable {accounts final : Accounts} {transactions : List Transaction}

/-- As long as no nonce is the last one, paying lowers none. -/
theorem Pays.nonce_le (pays : Pays accounts transactions final) (nonces : NoncesFit transactions) (address : Address) :
    (nonceOf accounts address).toNat ≤ (nonceOf final address).toNat := by
  induction pays with
  | nil => exact Nat.le_refl _
  | @cons accounts final tx rest account payable _ ih =>
    obtain ⟨fits,nonces⟩ := List.forall_mem_cons.mp nonces
    refine Nat.le_trans ?_ (ih nonces)
    rw [nonceOf_transfer]
    split
    · next self =>
      have current : nonceOf accounts address = account.nonce := by
        rw [self,nonceOf,payable.held]
        rfl
      rw [nonceValue,payable.ordered] at fits
      rw [current,UInt64.toNat_add,UInt64.toNat_one,Nat.mod_eq_of_lt fits]
      exact Nat.le_succ _
    · exact Nat.le_refl _

theorem Pays.past (pays : Pays accounts transactions final) (nonces : NoncesFit transactions) {tx : Transaction}
    (member : tx ∈ transactions) : nonceValue tx < (nonceOf final tx.sender).toNat := by
  induction pays with
  | nil => cases member
  | @cons accounts final first rest account payable later ih =>
    obtain ⟨fits,others⟩ := List.forall_mem_cons.mp nonces
    rcases List.mem_cons.mp member with rfl | member
    · refine Nat.lt_of_lt_of_le ?_ (later.nonce_le others tx.sender)
      rw [nonceOf_transfer,if_pos rfl,← payable.ordered,UInt64.toNat_add,UInt64.toNat_one]
      rw [nonceValue] at fits ⊢
      rw [Nat.mod_eq_of_lt fits]
      exact Nat.lt_succ_self _
    · exact ih others member

end StateManager

theorem ledgerStep_nonce_le (accounts : Accounts) {block : Block} (nonces : NoncesFit block.transactions)
    (address : Address) : (nonceOf accounts address).toNat ≤ (nonceOf (ledgerStep accounts block) address).toNat := by
  rw [← applyBlock_accounts ⟨accounts,[]⟩ block]
  rcases StateManager.applyBlock_cases ⟨accounts,[]⟩ block with ⟨-,pays⟩ | ⟨-,refused,-⟩
  · exact pays.nonce_le nonces address
  · rw [refused]

theorem ledgerOf_nonce_le (genesisAllocations : AddressMap UInt64) {older chain : List Block} (nonempty : older ≠ [])
    (before : older <+: chain) (nonces : ∀ block ∈ chain, NoncesFit block.transactions) (address : Address) :
    (nonceOf (ledgerOf genesisAllocations older) address).toNat ≤
      (nonceOf (ledgerOf genesisAllocations chain) address).toNat := by
  obtain ⟨newer,rfl⟩ := before
  induction newer using List.reverseRecOn with
  | nil => rw [List.append_nil]
  | append_singleton newer block ih =>
    rw [← List.append_assoc] at nonces ⊢
    rw [ledgerOf_append genesisAllocations (List.append_ne_nil_of_left_ne_nil nonempty _)]
    refine Nat.le_trans (ih fun other member => nonces other (List.mem_append_left _ member)) ?_
    exact ledgerStep_nonce_le _ (nonces block (List.mem_append_right _ (List.mem_singleton_self _))) address

namespace Mempool
variable {ext : Externals} {state : StateManager} {pool : Mempool} {order : IterationOrder} {maxCount : Nat}
  {tx : Transaction}

/-- A pending transaction is left out for as many as a block takes, which all come before it. -/
theorem left_out (pending : tx ∈ pool.transactions) (left : tx ∉ pool.getTransactionsForBlock order maxCount) :
    (pool.getTransactionsForBlock order maxCount).length = maxCount ∧
    ∀ rival ∈ pool.getTransactionsForBlock order maxCount, precedes tx rival = false := by
  have parts := List.take_append_drop maxCount (sortTransactions (order.visit pool.transactions))
  have sorted : (sortTransactions (order.visit pool.transactions)).Pairwise fun a b => precedes b a = false :=
    List.pairwise_insertionSort _ _
  have later : tx ∈ (sortTransactions (order.visit pool.transactions)).drop maxCount := by
    have listed := (sorted_perm order pool).mem_iff.mpr pending
    rw [← parts] at listed
    exact (List.mem_append.mp listed).resolve_left left
  constructor
  · have some_left := List.length_pos_of_mem later
    rw [List.length_drop] at some_left
    rw [getTransactionsForBlock,List.length_take]
    omega
  · rw [← parts] at sorted
    exact fun rival chosen => (List.pairwise_append.mp sorted).2.2 rival chosen tx later

theorem Filed.chosen_nodup (filed : Filed ext pool) (order : IterationOrder) (maxCount : Nat) :
    (pool.getTransactionsForBlock order maxCount).Nodup := by
  have listed : pool.transactions.Nodup := filed.hashes_nodup.of_map
  exact ((sorted_perm order pool).nodup_iff.mpr listed).sublist (List.take_sublist _ _)

/-- The ledger is not past what is pending. -/
theorem Consistent.pending_ahead (consistent : Consistent ext state pool) (nonces : NoncesFit pool.transactions)
    (pending : tx ∈ pool.transactions) : (nonceOf state.accounts tx.sender).toNat ≤ nonceValue tx := by
  have covered := consistent.covered nonces tx.sender
  have member : nonceValue tx ∈ (pool.pendingOf tx.sender).map nonceValue :=
    Multiset.mem_map_of_mem _ (mem_pendingOf.mpr ⟨mem_transactions.mp pending,rfl⟩)
  rw [covered.nonces,Multiset.mem_coe,List.mem_range'_1,StateManager.getNonce_eq] at member
  exact member.1

/-- What the node puts into a block of its own can be paid for, and leaves the pool; all else stays. -/
theorem Consistent.mines (consistent : Consistent ext state pool) (nonces : NoncesFit pool.transactions)
    (fits : StateManager.supply state.accounts < 2 ^ 64) {block : Block}
    (chosen : block.transactions = pool.getTransactionsForBlock order maxCount) (order' : IterationOrder) :
    Pays state.accounts block.transactions (state.applyBlock block).2.accounts ∧
    ∀ tx, tx ∈ (pool.cleanup ext order' state block).transactions ↔
      tx ∈ pool.transactions ∧ tx ∉ block.transactions := by
  have filed : Filed ext pool := consistent.verified
  obtain ⟨final,pays,settled⟩ := consistent.pays_selection nonces fits order maxCount
  rw [← chosen] at pays settled
  have applied := (StateManager.applyBlock_pays pays).2
  rw [← applied] at pays settled
  have fits' : NoncesFit (pool.removeMinedTransactions block).transactions := fun tx member =>
    nonces tx (mem_removeMined member)
  obtain ⟨-,each,-⟩ := revalidate_keeps (filed.removeMined block) fits'
    (fun address => (consistent.covered nonces address).removeMined filed order chosen (settled address)) order'
  have members := Multiset.coe_eq_coe.mp (transactions_eq each)
  refine ⟨pays,fun tx => ?_⟩
  change tx ∈ ((pool.removeMinedTransactions block).revalidate ext order' (state.applyBlock block).2).2.transactions ↔ _
  rw [members.mem_iff,(removeMined_perm filed order chosen).mem_iff,chosen,getTransactionsForBlock]
  have parts := List.take_append_drop maxCount (sortTransactions (order.visit pool.transactions))
  have sorted := sorted_perm order pool
  have apart : ((sortTransactions (order.visit pool.transactions)).take maxCount ++
      (sortTransactions (order.visit pool.transactions)).drop maxCount).Nodup := by
    rw [parts]
    exact sorted.nodup_iff.mpr filed.hashes_nodup.of_map
  rw [← sorted.mem_iff,← parts,List.mem_append,parts]
  constructor
  · intro left
    exact ⟨.inr left,fun taken => (List.nodup_append.mp apart).2.2 tx taken tx left rfl⟩
  · rintro ⟨taken | left,other⟩
    · exact absurd taken other
    · exact left

end Mempool

section sections
variable {ext : Externals} {config : Config} {orders : Nat → IterationOrder} {now later : Snapshot}

/-- An acceptance that nothing interrupts. -/
theorem Holding.undisturbed (chain : List Block) (state : StateManager) (pool : Mempool) (block : Block) :
    Acceptance ext Undisturbed orders block Never
      (Holding chain state pool) (Holding (chain ++ [block]) state pool)
      (Holding (chain ++ [block]) (state.applyBlock block).2 pool)
      (Holding (chain ++ [block]) (state.applyBlock block).2 (pool.cleanup ext (orders (chain.length + 1)) state block))
      (Holding (chain ++ [block]) (state.applyBlock block).2 (pool.cleanup ext (orders (chain.length + 1)) state block))
      (Holding (chain ++ [block]) (state.applyBlock block).2 (pool.cleanup ext (orders (chain.length + 1)) state block))
      (Holding (chain ++ [block]) (state.applyBlock block).2
        (pool.cleanup ext (orders (chain.length + 1)) state block)) :=
  { Holding.acceptance ext orders block with
    crash := fun possible => by cases possible
    fail := fun _ possible => by cases possible }

theorem produceBlock_mines {node : Node} (sound : Sound ext config node) (keys : config.nodeKeys.WellFormed ext)
    (room : node.blockchain.chain.length + 1 < 2 ^ 64) (clock : UInt64)
    (turn : node.consensus.getProducer node.blockchain.getHeight = node.nodeAddr) :
    Spec Undisturbed (fun now => now.node = node) (produceBlock ext orders clock)
      (fun _ now => ∃ block,
        Blockchain.Extends ext node.blockchain.consensus node.blockchain.chain block ∧
        block.transactions = node.mempool.getTransactionsForBlock (orders node.blockchain.chain.length) 100 ∧
        Holding (node.blockchain.chain ++ [block]) (node.state.applyBlock block).2
          (node.mempool.cleanup ext (orders (node.blockchain.chain.length + 1)) node.state block) now) Never := by
  refine Spec.getNode_bind fun held exec start => ?_
  obtain rfl : node = held := start.2.1.symm.trans start.2.2
  obtain ⟨block,made,valid⟩ := createBlock_extends sound keys turn room
    (orders node.blockchain.chain.length) 100 clock
  have transactions : block.transactions =
      node.mempool.getTransactionsForBlock (orders node.blockchain.chain.length) 100 := by
    obtain ⟨_,_,rfl⟩ := signBlock_ok ext made
    rfl
  refine Spec.ite (fun other => absurd turn other) (fun _ => ?_) exec start
  refine Spec.through (fun found now => found = block ∧ now.node = node)
    (Spec.lift (fun found ok now begun => ?_) fun e error => ?_) fun found => ?_
  · rw [made] at ok
    exact ⟨(Except.ok.inj ok).symm,begun.2⟩
  · rw [made] at error
    cases error
  intro exec start
  obtain rfl := start.2.1
  have accepted := ((Stands.acceptance orders found).both (Holding.undisturbed node.blockchain.chain node.state
    node.mempool found) fun _ _ never _ => never).accepts fun now
      (holds : Stands node.blockchain.consensus node.blockchain.chain node.state.accounts now ∧ _) =>
      Blockchain.addBlock_of_extends ext _ found (by rw [holds.1.consensus,holds.1.chain]; exact valid)
  refine Spec.bind accepted (fun accepted => Spec.ite (fun _ => ?_) fun no => ?_) exec
    ⟨start.1,⟨by rw [start.2.2],by rw [start.2.2],by rw [start.2.2]⟩,by rw [start.2.2],by rw [start.2.2],
      by rw [start.2.2]⟩
  · exact Spec.pure fun now outcome => ⟨found,valid,transactions,outcome.2.2⟩
  · exact fun exec outcome => absurd outcome.2.1 no

theorem Process.step_mines (sound : Sound ext config now.node) (keys : config.nodeKeys.WellFormed ext)
    (room : now.node.blockchain.chain.length + 1 < 2 ^ 64)
    (turn : now.node.consensus.getProducer now.node.blockchain.getHeight = now.node.nodeAddr) {fates : List Fate}
    (calm : ∀ fate ∈ fates, Undisturbed fate) {clock : UInt64}
    (stepped : (Process.up now).step ext config (.produceBlock clock orders fates) = .up later) :
    ∃ block, Blockchain.Extends ext now.node.blockchain.consensus now.node.blockchain.chain block ∧
      block.transactions = now.node.mempool.getTransactionsForBlock (orders now.node.blockchain.chain.length) 100 ∧
      Holding (now.node.blockchain.chain ++ [block]) (now.node.state.applyBlock block).2
        (now.node.mempool.cleanup ext (orders (now.node.blockchain.chain.length + 1)) now.node.state block) later := by
  change Process.finish (produceBlock ext orders clock ⟨now,fates⟩) = _ at stepped
  obtain ⟨_,after,ran,block,valid,transactions,holding⟩ :=
    (produceBlock_mines sound keys room clock turn).returns now rfl calm
  rw [ran] at stepped
  obtain rfl := Process.up.inj stepped
  exact ⟨block,valid,transactions,holding.chain,holding.state,holding.pool⟩

/-- The transaction is pending, unless the chain has got longer. -/
structure Keeps (tx : Transaction) (length : Nat) (now : Snapshot) : Prop where
  longer : length ≤ now.node.blockchain.chain.length
  pending : now.node.blockchain.chain.length = length → tx ∈ now.node.mempool.transactions

theorem Keeps.enduring (tx : Transaction) (length : Nat) : Process.Enduring ext (fun _ => True) (fun _ => True)
    (Keeps tx length) fun _ _ _ _ => True where
  announcing := {
    interrupt := fun _ _ keeps => keeps
    blame := fun _ _ keeps => ⟨keeps.longer,keeps.pending⟩
    reply := fun _ _ _ keeps _ _ => ⟨keeps.longer,keeps.pending⟩
    admission := fun _ other _ now _ _ keeps => by
      refine ⟨keeps.longer,fun same => ?_⟩
      change tx ∈ (now.node.mempool.addTransactions ext now.node.state [other]).transactions
      exact Mempool.addTransactions_keeps (keeps.pending same)
    accept := fun orders msg block _ _ => by
      have longer (now : Snapshot) (more : length < now.node.blockchain.chain.length) : Keeps tx length now :=
        ⟨more.le,fun same => absurd same (Nat.ne_of_gt more)⟩
      refine ⟨fun now => length < now.node.blockchain.chain.length,fun now => length < now.node.blockchain.chain.length,
        fun now => length < now.node.blockchain.chain.length,fun now => length < now.node.blockchain.chain.length,
        fun now => length < now.node.blockchain.chain.length,fun now => length < now.node.blockchain.chain.length,
        ?_,longer,fun _ now _ more => longer _ more⟩
      exact {
        refuse := fun now keeps refused => by
          have same := Blockchain.addBlock_refused ext _ _ refused
          exact ⟨keeps.longer.trans_eq (congrArg List.length same.symm),fun level =>
            keeps.pending ((congrArg List.length same.symm).trans level)⟩
        append := fun now keeps accepted => by
          have more : (now.node.blockchain.addBlock ext block).2.chain = _ :=
            (Blockchain.addBlock_accepted ext _ _ accepted).2
          change length < (now.node.blockchain.addBlock ext block).2.chain.length
          rw [more,List.length_append]
          exact Nat.lt_succ_of_le keeps.longer
        apply := fun _ more => more
        clean := fun _ more => more
        save := fun _ _ _ _ more _ _ => more
        count := fun _ _ _ _ more _ _ => more
        account := fun _ _ _ _ _ _ more _ _ _ => more
        complete := fun _ _ more _ _ => more
        memory := fun _ more _ => more
        crash := fun _ _ _ => trivial
        fail := fun _ _ _ _ stages => longer _ (by rcases stages with h | h | h <;> exact h) } }
  kill := fun _ _ => trivial
  broadcast := fun _ _ _ keeps _ => ⟨keeps.longer,keeps.pending⟩

/-- Only a block takes a transaction out of the pool. -/
theorem Process.step_pending {action : Action} (stepped : (Process.up now).step ext config action = .up later)
    (level : later.node.blockchain.chain.length = now.node.blockchain.chain.length) {tx : Transaction}
    (pending : tx ∈ now.node.mempool.transactions) : tx ∈ later.node.mempool.transactions := by
  have start : Keeps tx now.node.blockchain.chain.length now := ⟨Nat.le_refl _,fun _ => pending⟩
  cases boots : action.boots with
  | true =>
    cases action with
    | boot fates =>
      obtain rfl := Process.up.inj stepped
      exact pending
    | _ => cases boots
  | false =>
    have holds : Process.Holds (Keeps tx now.node.blockchain.chain.length) (fun _ _ _ _ => True)
        ((Process.up now).step ext config action) :=
      (Keeps.enduring tx now.node.blockchain.chain.length).step_holds action (fun _ _ => trivial) boots
        (fun _ _ => trivial) start
    rw [stepped] at holds
    exact Keeps.pending holds level

end sections

section network
variable {ι : Type} [DecidableEq ι] {ext : Externals} {config : ι → Config}

namespace Run
variable (run : Run ext config) (i : ι)

def pool (t : Nat) : List Transaction := (run.now t i).node.mempool.transactions

def ledger (t : Nat) : Accounts := (run.now t i).node.state.accounts

def made (s t : Nat) : List Block :=
  ((run.chain i t).drop (run.chain i s).length).filter fun block => block.validator = signer ext config i

def served (s t : Nat) : List Transaction := (run.made i s t).flatMap Block.transactions

/-- Nothing that is pending at the node or on its chain has the last nonce. -/
structure Regulated (t : Nat) : Prop where
  pending : NoncesFit (run.pool i t)
  chain : ∀ block ∈ run.chain i t, NoncesFit block.transactions

/-- What was paid since sorts before the transaction, a hundred to each block, and nothing twice. -/
structure Overtaken (tx : Transaction) (s t : Nat) : Prop where
  full : (run.served i s t).length = 100 * (run.made i s t).length
  distinct : (run.served i s t).Nodup
  rivals : ∀ rival ∈ run.served i s t, rival ≠ tx ∧ precedes tx rival = false ∧
    ∃ u, s ≤ u ∧ u < t ∧ rival ∈ run.pool i u
  past : ∀ rival ∈ run.served i s t, nonceValue rival < (nonceOf (run.ledger i t) rival.sender).toNat

variable {run i} {tx : Transaction} {s t : Nat}

theorem made_append (earlier : s ≤ t) {more : List Block} (longer : run.chain i (t + 1) = run.chain i t ++ more) :
    run.made i s (t + 1) = run.made i s t ++
      more.filter fun block => block.validator = signer ext config i := by
  rw [made,longer,List.drop_append_of_le_length (run.chain_later i earlier).length_le,List.filter_append,made]

theorem Overtaken.start : run.Overtaken i tx s s := by
  have nothing : run.made i s s = [] := by rw [made,List.drop_length,List.filter_nil]
  have unpaid : run.served i s s = [] := by rw [served,nothing,List.flatMap_nil]
  refine ⟨by rw [unpaid,nothing]; rfl,by rw [unpaid]; exact List.nodup_nil,?_,?_⟩ <;> rw [unpaid] <;>
    exact List.forall_mem_nil _

section history
variable (parses : ext.ParseUndoesDump) (federation : Federation ext config)
  (keys : (config i).nodeKeys.WellFormed ext) (fits : StateManager.allocated (config i).genesisAllocations < 2 ^ 64)
include parses federation

include keys fits

/-- In a step a node gets no block of its own, or one, with a hundred of the pool. -/
theorem step_cases (free : CollisionFree ext (run.world (t + 1))) (regulated : run.Regulated i t)
    (room : (run.chain i t).length + 1 < 2 ^ 64) :
    (∃ more, run.chain i (t + 1) = run.chain i t ++ more ∧ ∀ block ∈ more, block.validator ≠ signer ext config i) ∨
    ∃ block order, run.chain i (t + 1) = run.chain i t ++ [block] ∧ block.validator = signer ext config i ∧
      block.transactions = (run.now t i).node.mempool.getTransactionsForBlock order 100 ∧
      Pays (run.ledger i t) block.transactions (run.ledger i (t + 1)) ∧
      ∀ tx, tx ∈ run.pool i (t + 1) ↔ tx ∈ run.pool i t ∧ tx ∉ block.transactions := by
  by_cases other : i = run.actor t → ∀ clock orders fates, run.action t ≠ .produceBlock clock orders fates
  · exact .inl (run.foreign parses federation i free other)
  push Not at other
  obtain ⟨acting,clock,orders,fates,producing⟩ := other
  have sound := run.sound parses federation t i
  have calm := run.undisturbed t
  have stepped := run.acts t
  rw [← acting,producing] at stepped
  rw [producing] at calm
  by_cases turn : (run.now t i).node.consensus.getProducer (run.now t i).node.blockchain.getHeight =
      (run.now t i).node.nodeAddr
  · obtain ⟨block,valid,chosen,holding⟩ := Process.step_mines sound keys room turn calm stepped
    have supplied : StateManager.supply (run.now t i).node.state.accounts < 2 ^ 64 := by
      rw [sound.ledger,supply_ledgerOf fits]
      exact fits
    obtain ⟨pays,left⟩ := sound.pool.mines regulated.pending supplied chosen
      (orders ((run.now t i).node.blockchain.chain.length + 1))
    have index : block.index = (run.now t i).node.blockchain.getHeight :=
      UInt64.toNat.inj (valid.index.trans (Blockchain.getHeight_toNat _).symm)
    refine .inr ⟨block,_,holding.chain,?_,chosen,?_,fun tx => ?_⟩
    · rw [valid.scheduled _ sound.configured.consensus,index,turn]
      exact sound.configured.nodeAddr
    · rw [ledger,ledger,holding.state]
      exact pays
    · rw [pool,holding.pool]
      exact left tx
  · rcases Process.step_produceBlock sound keys room calm stepped with ⟨mine,-⟩ | ⟨-,same⟩
    · exact absurd mine turn
    · exact .inl ⟨[],by rw [chain,same,List.append_nil]; rfl,List.forall_mem_nil _⟩

omit keys fits in
theorem ledger_nonce_le (regulated : run.Regulated i (t + 1)) (address : Address) :
    (nonceOf (run.ledger i t) address).toNat ≤ (nonceOf (run.ledger i (t + 1)) address).toNat := by
  rw [ledger,ledger,(run.sound parses federation t i).ledger,(run.sound parses federation (t + 1) i).ledger]
  exact ledgerOf_nonce_le _ (run.now t i).node.blockchain.nonempty (run.chain_step i t) regulated.chain address

/-- The next block of the node's own pays for others than those that it has paid for. -/
theorem Overtaken.step (overtaken : run.Overtaken i tx s t) (earlier : s ≤ t)
    (free : CollisionFree ext (run.world (t + 1))) (regulated : run.Regulated i t)
    (regulated' : run.Regulated i (t + 1)) (room : (run.chain i t).length + 1 < 2 ^ 64)
    (pending : tx ∈ run.pool i t) (pending' : tx ∈ run.pool i (t + 1)) : run.Overtaken i tx s (t + 1) := by
  have later (rival : Transaction) (paid : rival ∈ run.served i s t) :=
    (overtaken.past rival paid).trans_le (ledger_nonce_le parses federation regulated' rival.sender)
  rcases step_cases parses federation keys fits free regulated room with
    ⟨more,longer,others⟩ | ⟨block,order,longer,own,chosen,pays,left⟩
  · have same : run.made i s (t + 1) = run.made i s t := by
      have none_own : more.filter (fun block => block.validator = signer ext config i) = [] :=
        List.filter_eq_nil_iff.mpr fun block new own => others block new (of_decide_eq_true own)
      rw [made_append earlier longer,none_own,List.append_nil]
    have paid : run.served i s (t + 1) = run.served i s t := by rw [served,same,served]
    refine ⟨by rw [paid,same]; exact overtaken.full,by rw [paid]; exact overtaken.distinct,fun rival member => ?_,?_⟩
    · rw [paid] at member
      obtain ⟨other,before,u,since,past,waiting⟩ := overtaken.rivals rival member
      exact ⟨other,before,u,since,past.trans (Nat.lt_succ_self t),waiting⟩
    · rw [paid]
      exact later
  · have more : run.made i s (t + 1) = run.made i s t ++ [block] := by
      have whole : [block].filter (fun block => block.validator = signer ext config i) = [block] :=
        List.filter_eq_self.mpr (List.forall_mem_singleton.mpr (decide_eq_true own))
      rw [made_append earlier longer,whole]
    have paid : run.served i s (t + 1) = run.served i s t ++ block.transactions := by
      rw [served,more,List.flatMap_append,List.flatMap_singleton,served]
    have left_out : tx ∉ block.transactions := ((left tx).mp pending').2
    have sound := run.sound parses federation t i
    have filed : Mempool.Filed ext (run.now t i).node.mempool := sound.pool.verified
    have waiting {rival : Transaction} (member : rival ∈ block.transactions) : rival ∈ run.pool i t := by
      rw [chosen] at member
      exact (Mempool.sorted_perm order _).mem_iff.mp (List.mem_of_mem_take member)
    have nonces : NoncesFit block.transactions := fun rival member => regulated.pending rival (waiting member)
    have behind := left_out
    rw [chosen] at behind
    obtain ⟨hundred,before⟩ := Mempool.left_out pending behind
    rw [← chosen] at hundred before
    refine ⟨?_,?_,fun rival member => ?_,fun rival member => ?_⟩
    · rw [paid,more,List.length_append,List.length_append,overtaken.full,hundred,List.length_singleton,Nat.mul_succ]
    · rw [paid]
      refine List.nodup_append.mpr ⟨overtaken.distinct,?_,fun old paid_for new member same => ?_⟩
      · rw [chosen]
        exact filed.chosen_nodup order 100
      · -- the ledger is past the one and not past the other
        subst same
        have ahead := sound.pool.pending_ahead regulated.pending (waiting member)
        exact absurd (overtaken.past old paid_for) (Nat.not_lt.mpr ahead)
    · rw [paid] at member
      rcases List.mem_append.mp member with member | member
      · obtain ⟨other,before,u,since,past,waiting⟩ := overtaken.rivals rival member
        exact ⟨other,before,u,since,past.trans (Nat.lt_succ_self t),waiting⟩
      · exact ⟨fun same => left_out (same ▸ member),before rival member,t,earlier,Nat.lt_succ_self t,waiting member⟩
    · rw [paid] at member
      rcases List.mem_append.mp member with member | member
      · exact later rival member
      · exact pays.past nonces member

/-- The transaction leaves the pool with a block, and with one of the node's own into that. -/
theorem leaves (free : CollisionFree ext (run.world (t + 1))) (regulated : run.Regulated i t)
    (room : (run.chain i t).length + 1 < 2 ^ 64) (pending : tx ∈ run.pool i t) (gone : tx ∉ run.pool i (t + 1)) :
    run.chain i (t + 1) ≠ run.chain i t ∧ ∀ block ∈ (run.chain i (t + 1)).drop (run.chain i t).length,
      block.validator = signer ext config i → tx ∈ block.transactions := by
  refine ⟨fun same => ?_,fun block new own => ?_⟩
  · by_cases acting : i = run.actor t
    · subst acting
      exact gone (Process.step_pending (run.acts t) (congrArg List.length same) pending)
    · rw [pool,run.others t i acting] at gone
      exact gone pending
  · rcases step_cases parses federation keys fits free regulated room with
      ⟨more,longer,others⟩ | ⟨single,order,longer,-,-,-,left⟩
    · rw [longer,List.drop_left] at new
      exact absurd own (others block new)
    · rw [longer,List.drop_left] at new
      obtain rfl := List.mem_singleton.mp new
      by_contra left_out
      exact gone ((left tx).mpr ⟨pending,left_out⟩)

omit keys fits in
/-- So the chain does not get beyond as many rounds as there are hundreds of rivals, and one. -/
theorem Overtaken.bound (overtaken : run.Overtaken i tx s t) (earlier : s ≤ t)
    (authority : signer ext config i ∈ (config i).authorities) {rivals : Finset Transaction}
    (known : ∀ u, s ≤ u → u < t → ∀ rival ∈ run.pool i u, rival ≠ tx → precedes tx rival = false → rival ∈ rivals) :
    (run.chain i t).length < (run.chain i s).length + (rivals.card / 100 + 1) * (config i).authorities.length := by
  by_contra long
  have sound := run.sound parses federation t i
  have few : (run.served i s t).length ≤ rivals.card := by
    rw [← List.toFinset_card_of_nodup overtaken.distinct]
    refine Finset.card_le_card fun rival member => ?_
    obtain ⟨other,before,u,since,past,waiting⟩ := overtaken.rivals rival (List.mem_toFinset.mp member)
    exact known u since past rival waiting other before
  have height := (run.chain_later i earlier).length_le
  have nonempty : 0 < (run.now t i).node.consensus.authorities.length := (run.now t i).node.consensus.nonempty
  rw [← sound.configured.authorities] at authority long
  have enough : (rivals.card / 100 + 1) * (run.now t i).node.consensus.authorities.length ≤
      (run.chain i t).length - (run.chain i s).length := by omega
  have often := RoundRobin.rounds_le_count nonempty authority (run.chain i s).length _ enough
  have turns : ((run.chain i t).drop (run.chain i s).length).map Block.validator =
      (List.range' (run.chain i s).length ((run.chain i t).length - (run.chain i s).length)).map
        (RoundRobin.turn nonempty) := by
    have stretch := sound.producers (List.length_pos_iff.mpr (run.now s i).node.blockchain.nonempty)
      (Nat.add_sub_cancel' height).le
    rwa [List.take_of_length_le (by rw [List.length_drop]; rfl)] at stretch
  have own : (((run.chain i t).drop (run.chain i s).length).map Block.validator).count (signer ext config i) =
      (run.made i s t).length := by
    rw [List.count,List.countP_map,List.countP_eq_length_filter,made]
    exact congrArg List.length (List.filter_congr fun _ _ => beq_eq_decide _ _)
  rw [← turns,own] at often
  have full := overtaken.full
  omega

end history

/-- In a fair run, a transaction that is pending at an authority leaves the pool, with a block, before
the chain has grown by as many rounds as there are hundreds of others that sort before it, and one:
no stream of transactions that sort after it keeps it waiting. Where the block is the authority's
own, the transaction is in it. -/
theorem Fair.settles [Finite ι] {number : ι → ι → Nat} (fair : run.Fair number) (parses : ext.ParseUndoesDump)
    (federation : Federation ext config) (keys : ∀ i, (config i).nodeKeys.WellFormed ext)
    (fits : StateManager.allocated (config i).genesisAllocations < 2 ^ 64)
    (authority : signer ext config i ∈ (config i).authorities) (pending : tx ∈ run.pool i s)
    (rivals : Finset Transaction)
    (known : ∀ t ≥ s, ∀ rival ∈ run.pool i t, rival ≠ tx → precedes tx rival = false → rival ∈ rivals)
    (room : (run.chain i s).length + (rivals.card / 100 + 1) * (config i).authorities.length < 2 ^ 64) :
    ∃ t, run.Spoiled t ∨ ¬ run.Regulated i t ∨ s ≤ t ∧
      (run.chain i t).length < (run.chain i s).length + (rivals.card / 100 + 1) * (config i).authorities.length ∧
      tx ∈ run.pool i t ∧ tx ∉ run.pool i (t + 1) ∧ run.chain i (t + 1) ≠ run.chain i t ∧
      ∀ block ∈ (run.chain i (t + 1)).drop (run.chain i t).length,
        block.validator = signer ext config i → tx ∈ block.transactions := by
  by_contra never
  push Not at never
  have free (t : Nat) : CollisionFree ext (run.world t) := by
    by_contra collision
    exact (never t).1 (.inl collision)
  have bounded {t : Nat} (earlier : s ≤ t) (overtaken : run.Overtaken i tx s t) :
      (run.chain i t).length < (run.chain i s).length + (rivals.card / 100 + 1) * (config i).authorities.length :=
    overtaken.bound parses federation earlier authority fun u since _ => known u since
  have waits (t : Nat) (earlier : s ≤ t) : tx ∈ run.pool i t ∧ run.Overtaken i tx s t := by
    induction t, earlier using Nat.le_induction with
    | base => exact ⟨pending,.start⟩
    | succ t earlier ih =>
      obtain ⟨waiting,overtaken⟩ := ih
      have below := bounded earlier overtaken
      have enough : (run.chain i t).length + 1 < 2 ^ 64 := by omega
      by_cases still : tx ∈ run.pool i (t + 1)
      · exact ⟨still,overtaken.step parses federation (keys i) fits earlier (free (t + 1)) (never t).2.1
          (never (t + 1)).2.1 enough waiting still⟩
      · obtain ⟨grows,own⟩ := leaves parses federation (keys i) fits (free (t + 1)) (never t).2.1 enough waiting still
        obtain ⟨block,new,mine,left_out⟩ := (never t).2.2 earlier below waiting still grows
        exact absurd (own block new mine) left_out
  obtain ⟨t,spoiled | reached⟩ := fair.grows parses federation keys room
  · exact (never t).1 spoiled
  have below := bounded (Nat.le_max_left s t) (waits _ (Nat.le_max_left s t)).2
  have high := (reached i).1.trans (run.length_monotone i (Nat.le_max_right s t))
  exact absurd below (Nat.not_lt.mpr high)

end Run
end network

open Reference in
/-- The second payment of the validator waits for the first only: it is gone before each of the two
authorities has had a turn. -/
theorem Run.Fair.settles_second : ∃ run : Run libraries duo, run.Fair (fun _ _ => 0) ∧
    run.pool true 0 = [secondPayment,payment] ∧ precedes secondPayment payment = false ∧
    ∃ t, ¬ run.Spoiled t ∧ run.Regulated true t ∧
      (run.chain true t).length < (run.chain true 0).length + (1 / 100 + 1) * 2 ∧
      secondPayment ∈ run.pool true t ∧ secondPayment ∉ run.pool true (t + 1) ∧
      run.chain true (t + 1) ≠ run.chain true t ∧
      ∀ block ∈ (run.chain true (t + 1)).drop (run.chain true t).length,
        block.validator = signer libraries duo true → secondPayment ∈ block.transactions := by
  obtain ⟨first,kept,level,pending,height⟩ := duo_opened
  obtain ⟨run,start,fair,always⟩ := exists_fair libraries_parse duo_federation duo_distinct duo_keys kept level arrival
    fun _ _ => digest_separates
  have begins : run.pool true 0 = [secondPayment,payment] := by rw [Run.pool,start,pending]
  have nonces : NoncesFit [secondPayment,payment] := by
    intro tx member
    rcases List.mem_pair.mp member with rfl | rfl <;> decide
  have regulated (t : Nat) : run.Regulated true t :=
    ⟨fun tx member => nonces tx ((always t).2.pools true member),
      fun block member tx paid => nonces tx ((always t).2.drawn true block member paid)⟩
  have fits : StateManager.allocated (duo true).genesisAllocations < 2 ^ 64 := by decide +kernel
  have authority : signer libraries duo true ∈ (duo true).authorities := by decide +kernel
  have room : (run.chain true 0).length + (({payment} : Finset Transaction).card / 100 + 1) *
      (duo true).authorities.length < 2 ^ 64 := by
    rw [Run.chain,start,height,Finset.card_singleton]
    decide
  have known (t : Nat) (_ : t ≥ 0) (rival : Transaction) (waiting : rival ∈ run.pool true t)
      (other : rival ≠ secondPayment) (_ : precedes secondPayment rival = false) : rival ∈ ({payment} : Finset Transaction) := by
    rcases List.mem_pair.mp ((always t).2.pools true waiting) with rfl | rfl
    · exact absurd rfl other
    · exact Finset.mem_singleton_self _
  obtain ⟨t,spoiled | irregular | ⟨-,settled⟩⟩ := fair.settles libraries_parse duo_federation duo_keys fits authority
    (by rw [begins]; exact List.mem_cons_self ..) {payment} known room
  · exact absurd spoiled (always t).1
  · exact absurd (regulated t) irregular
  · exact ⟨run,fair,begins,by decide +kernel,t,(always t).1,regulated t,settled⟩

end TitanCore
