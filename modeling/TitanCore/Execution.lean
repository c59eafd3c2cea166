import TitanCore.BlockSelection
import TitanCore.ChainCommitment
import TitanCore.Finality
import TitanCore.NodeCatchUp

/-! Execution in a federation: what an authority produces can be paid from its ledger, a node takes
nothing else, so every block on every chain was applied, and nodes of one height have one ledger. -/
namespace TitanCore

namespace StateManager

/-- Signatures do not matter to what is paid. -/
theorem Pays.content {accounts final : Accounts} {transactions others : List Transaction}
    (pays : Pays accounts transactions final)
    (same : transactions.map Transaction.content = others.map Transaction.content) : Pays accounts others final := by
  induction pays generalizing others with
  | nil accounts =>
    obtain rfl := List.map_eq_nil_iff.mp same.symm
    exact .nil accounts
  | @cons accounts final tx rest account payable later ih =>
    cases others with
    | nil => cases same
    | cons other others =>
      obtain ⟨head,tail⟩ := List.cons.inj same
      have payable' : Payable accounts other.content account := by
        rw [← head]
        exact ⟨payable.held,payable.funded,payable.ordered⟩
      have moved : transfer accounts account other.content = transfer accounts account tx := by
        rw [← head]
        rfl
      refine .cons ⟨payable'.held,payable'.funded,payable'.ordered⟩ ?_
      change Pays (transfer accounts account other.content) others final
      rw [moved]
      exact ih tail

end StateManager

/-- Nor to the ledger after a block. -/
theorem ledgerStep_content (accounts : Accounts) {a b : Block}
    (same : a.transactions.map Transaction.content = b.transactions.map Transaction.content) :
    ledgerStep accounts a = ledgerStep accounts b := by
  rw [← applyBlock_accounts ⟨accounts,[]⟩ a,← applyBlock_accounts ⟨accounts,[]⟩ b]
  rcases StateManager.applyBlock_cases ⟨accounts,[]⟩ a with ⟨-,pays⟩ | ⟨-,refused,never⟩
  · exact (StateManager.applyBlock_pays (pays.content same)).2.symm
  · rcases StateManager.applyBlock_cases ⟨accounts,[]⟩ b with ⟨-,pays⟩ | ⟨-,refused',-⟩
    · exact (never _ (pays.content same.symm)).elim
    · rw [refused,refused']

section ledgers
variable {genesisAllocations : AddressMap UInt64} {a b chain : List Block}

theorem ledgerOf_content (same : List.Forall₂ (fun x y : Block =>
    x.transactions.map Transaction.content = y.transactions.map Transaction.content) a b) :
    ledgerOf genesisAllocations a = ledgerOf genesisAllocations b := by
  have replayed {a b : List Block} (same : List.Forall₂ (fun x y : Block =>
      x.transactions.map Transaction.content = y.transactions.map Transaction.content) a b) (accounts : Accounts) :
      a.foldl ledgerStep accounts = b.foldl ledgerStep accounts := by
    induction same generalizing accounts with
    | nil => rfl
    | cons head _ ih => rw [List.foldl_cons,List.foldl_cons,ledgerStep_content accounts head,ih]
  cases same with
  | nil => rfl
  | cons _ rest => exact replayed rest _

theorem supply_ledgerOf (fits : StateManager.allocated genesisAllocations < 2 ^ 64) (chain : List Block) :
    StateManager.supply (ledgerOf genesisAllocations chain) = StateManager.allocated genesisAllocations := by
  rw [ledgerOf]
  induction chain.tail using List.reverseRecOn with
  | nil => exact StateManager.supply_create genesisAllocations
  | append_singleton blocks block ih =>
    rw [List.foldl_append,List.foldl_cons,List.foldl_nil]
    rw [← ih,← applyBlock_accounts ⟨blocks.foldl ledgerStep _,[]⟩ block]
    exact StateManager.supply_applyBlock_exact _ block (by rw [ih]; exact fits)

/-- Each block but the first can be paid from the ledger of those before it. -/
def Executed (genesisAllocations : AddressMap UInt64) (chain : List Block) : Prop :=
  ∀ k, 1 ≤ k → ∀ block, chain[k]? = some block →
    ∃ final, StateManager.Pays (ledgerOf genesisAllocations (chain.take k)) block.transactions final

theorem Executed.single (one : chain.length = 1) : Executed genesisAllocations chain := by
  intro k positive block at_k
  rw [List.getElem?_eq_none (by omega)] at at_k
  cases at_k

theorem Executed.of_start {shorter : List Block} (executed : Executed genesisAllocations chain)
    (before : shorter <+: chain) : Executed genesisAllocations shorter := by
  intro k positive block at_k
  have inside := (List.getElem?_eq_some_iff.mp at_k).1
  obtain ⟨rest,rfl⟩ := before
  have pays := executed k positive block (by rw [List.getElem?_append_left inside,at_k])
  rwa [List.take_append_of_le_length inside.le] at pays

/-- It is enough to look at what comes after a part that was executed. -/
theorem Executed.extend {older : List Block} (executed : Executed genesisAllocations older) (before : older <+: chain)
    (newer : ∀ k, older.length ≤ k → 1 ≤ k → ∀ block, chain[k]? = some block →
      ∃ final, StateManager.Pays (ledgerOf genesisAllocations (chain.take k)) block.transactions final) :
    Executed genesisAllocations chain := by
  intro k positive block at_k
  rcases Nat.lt_or_ge k older.length with old | new
  · obtain ⟨rest,rfl⟩ := before
    rw [List.getElem?_append_left old] at at_k
    rw [List.take_append_of_le_length old.le]
    exact executed k positive block at_k
  · exact newer k new positive block at_k

theorem Executed.append (executed : Executed genesisAllocations chain) {block : Block} {final : Accounts}
    (pays : StateManager.Pays (ledgerOf genesisAllocations chain) block.transactions final) :
    Executed genesisAllocations (chain ++ [block]) := by
  refine executed.extend (List.prefix_append _ _) fun k new _ found at_k => ⟨final,?_⟩
  rcases Blockchain.getElem?_push at_k with old | ⟨rfl,rfl⟩
  · exact absurd (List.getElem?_eq_some_iff.mp old).1 (Nat.not_lt.mpr new)
  · rwa [List.take_left]

theorem Executed.replays (executed : Executed genesisAllocations chain) :
    replay (StateManager.create genesisAllocations).accounts chain.tail = some (ledgerOf genesisAllocations chain) := by
  rw [ledgerOf,replay_iff]
  intro before block later split
  cases chain with
  | nil => simp at split
  | cons genesis rest =>
    rw [List.tail_cons] at split
    subst split
    have pays := executed (before.length + 1) (Nat.le_add_left 1 _) block (by simp)
    rwa [List.take_succ_cons,List.take_left] at pays

end ledgers

section steps
variable {ext : Externals} {config : Config}

/-- What a call of `produceBlock` leaves of the chain: as it was, or with a block that the ledger pays for. -/
def Produced (node : Node) (now : Snapshot) : Prop :=
  now.node.blockchain.chain = node.blockchain.chain ∨
    ∃ block final, now.node.blockchain.chain = node.blockchain.chain ++ [block] ∧
      StateManager.Pays node.state.accounts block.transactions final

def LeftProduced (node : Node) (_ : Interrupt) (now : Snapshot) : Prop := Produced node now

theorem acceptBlock_chain (orders : Nat → IterationOrder) (block : Block) (chain : List Block) :
    Spec (fun _ => True) (fun now => now.node.blockchain.chain = chain) (acceptBlock ext orders block)
      (fun _ now => now.node.blockchain.chain = chain ∨ now.node.blockchain.chain = chain ++ [block])
      (fun _ now => now.node.blockchain.chain = chain ∨ now.node.blockchain.chain = chain ++ [block]) := by
  have proof : Acceptance ext (fun _ => True) orders block
      (fun _ now => now.node.blockchain.chain = chain ∨ now.node.blockchain.chain = chain ++ [block])
      (fun now => now.node.blockchain.chain = chain) (fun now => now.node.blockchain.chain = chain ++ [block])
      (fun now => now.node.blockchain.chain = chain ++ [block]) (fun now => now.node.blockchain.chain = chain ++ [block])
      (fun now => now.node.blockchain.chain = chain ++ [block]) (fun now => now.node.blockchain.chain = chain ++ [block])
      (fun now => now.node.blockchain.chain = chain ++ [block]) :=
    { refuse := fun now same refused => (Blockchain.addBlock_refused ext _ _ refused).trans same
      append := fun now same accepted => by
        rw [← same]
        exact (Blockchain.addBlock_accepted ext _ _ accepted).2
      apply := fun _ same => same
      clean := fun _ same => same
      save := fun _ _ _ _ same _ _ => same
      count := fun _ _ _ _ same _ _ => same
      account := fun _ _ _ _ _ _ same _ _ => same
      complete := fun _ _ same _ => same
      memory := fun _ same _ => same
      crash := fun _ _ stages => by
        rcases stages with same | same | same | same | same | same
        · exact .inl same
        all_goals exact .inr same
      fail := fun _ _ _ _ stages => .inr (by rcases stages with same | same | same <;> exact same) }
  refine Spec.consequence proof.acceptBlock_spec (fun _ h => h) fun accepted now outcome => ?_
  cases accepted with
  | true => exact .inr outcome
  | false => exact .inl outcome

/-- Whatever happens to a sound node while it produces. -/
theorem produceBlock_produced {node : Node} (sound : Sound ext config node)
    (nonces : Mempool.NoncesFit node.mempool.transactions) (fits : StateManager.supply node.state.accounts < 2 ^ 64)
    (orders : Nat → IterationOrder) (clock : UInt64) :
    Spec (fun _ => True) (fun now => now.node = node) (produceBlock ext orders clock) (fun _ => Produced node)
      (LeftProduced node) := by
  refine Spec.getNode_bind fun held exec start => ?_
  obtain rfl : node = held := start.2.1.symm.trans start.2.2
  refine Spec.ite (fun _ => ?_) (fun _ => ?_) exec start
  · exact Spec.pure fun now same => .inl (by rw [same.1])
  let chosen := node.mempool.getTransactionsForBlock (orders node.blockchain.chain.length) 100
  obtain ⟨final,pays,-⟩ := sound.pool.pays_selection nonces fits (orders node.blockchain.chain.length) 100
  refine Spec.through (fun block now => block.transactions = chosen ∧ now.node.blockchain.chain = node.blockchain.chain)
    (Spec.lift (fun block made now same => ?_) fun _ _ now same => .inl (by rw [same.1])) fun block => ?_
  · obtain ⟨_,_,rfl⟩ := signBlock_ok ext made
    exact ⟨rfl,by rw [same.1]⟩
  intro exec start
  have transactions := start.2.1
  have added {now : Snapshot} (outcome : now.node.blockchain.chain = node.blockchain.chain ∨
      now.node.blockchain.chain = node.blockchain.chain ++ [block]) : Produced node now := by
    rcases outcome with same | longer
    · exact .inl same
    · exact .inr ⟨block,final,longer,by rw [transactions]; exact pays⟩
  refine Spec.bind (Spec.halts (acceptBlock_chain orders block node.blockchain.chain) fun _ _ => added)
    (fun accepted => Spec.ite (fun _ => ?_) fun _ => ?_) exec ⟨start.1,start.2.2⟩
  · exact Spec.pure fun now outcome => added outcome
  · exact Spec.pure fun now outcome => added outcome

theorem Process.produceBlock_memory {now : Snapshot} (sound : Sound ext config now.node)
    (nonces : Mempool.NoncesFit now.node.mempool.transactions)
    (fits : StateManager.supply now.node.state.accounts < 2 ^ 64) (orders : Nat → IterationOrder) (clock : UInt64)
    (fates : List Fate) {node : Node}
    (memory : ((Process.up now).step ext config (.produceBlock clock orders fates)).memory? = some node) :
    node.blockchain.chain = now.node.blockchain.chain ∨
    ∃ block final, node.blockchain.chain = now.node.blockchain.chain ++ [block] ∧
      StateManager.Pays now.node.state.accounts block.transactions final := by
  have outcome := produceBlock_produced sound nonces fits orders clock ⟨now,fates⟩ ⟨fun _ _ => trivial,rfl⟩
  change (Process.finish (produceBlock ext orders clock ⟨now,fates⟩)).memory? = _ at memory
  cases result : produceBlock ext orders clock ⟨now,fates⟩ with
  | mk answer exec =>
    rw [result] at outcome memory
    rcases answer with (_ | _) | deferred
    · obtain rfl := Option.some.inj memory
      exact outcome
    · obtain rfl := Option.some.inj memory
      exact outcome
    · obtain rfl := Option.some.inj memory
      exact outcome.2

/-- A node that is started again has a part of the chain that it had when it died; one that never ran has
the first block. -/
theorem Remains.boot_memory (parses : ext.ParseUndoesDump) (persistent : config.persistent = true) {base : List Block}
    {offered : Block → Prop} {held : Option Node} {disk : Storage} {sent : List Send} {log : List Event}
    (remains : Remains ext config base offered held disk sent log) {fates : List Fate}
    (calm : ∀ fate ∈ fates, Calm fate) {node : Node}
    (memory : ((Process.down held disk sent log).boot ext config fates).memory? = some node) :
    node.blockchain.chain.length = 1 ∨
    ∃ before, held = some before ∧ node.blockchain.chain <+: before.blockchain.chain := by
  cases result : (Process.down held disk sent log).boot ext config fates with
  | down held' disk' sent' log' =>
    have same : held' = held := by
      simp only [Process.boot] at result
      split at result
      · cases result
        rfl
      · split at result
        · cases result
        · cases result
          rfl
    rw [result] at memory
    exact .inr ⟨node,same.symm.trans memory,List.prefix_rfl⟩
  | up now =>
    rw [result] at memory
    obtain rfl := Option.some.inj memory
    cases remains with
    | unborn first faithful unsaved =>
      left
      cases built : construct ext config Storage.empty with
      | error e =>
        simp only [Process.boot,built] at result
        cases result
      | ok fresh =>
        obtain ⟨durable,image,-⟩ := (Remains.unborn first faithful unsaved :
          Remains ext config base offered none Storage.empty [] log).image built
        obtain ⟨height,read,length⟩ := image.height
        rw [Storage.loadChainHeight_absent rfl,Except.ok.injEq] at read
        rw [(image.reboot parses persistent calm result).1,← length,← read]
        rfl
    | dead _ durable image before _ _ =>
      right
      refine ⟨_,rfl,?_⟩
      rw [(image.reboot parses persistent calm result).1]
      exact before

/-- Only a start changes what is left of a process. -/
theorem Process.step_down (held : Option Node) (disk : Storage) (sent : List Send) (log : List Event) {action : Action}
    (noBoot : action.boots = false) :
    (Process.down held disk sent log).step ext config action = .down held disk sent log := by
  cases action with
  | boot fates => cases noBoot
  | receive body fromPeer orders fates =>
    rw [Process.step]
    split_ifs
    · rfl
    · split <;> rfl
  | _ => rfl

end steps

section network
variable {ι : Type} {ext : Externals} {config : ι → Config} {world : ι → Process}

/-- No two texts that blocks rest on have one digest, and no pending nonce is the last one. -/
structure Orderly (ext : Externals) (world : ι → Process) : Prop where
  apart : ∀ a b, Occurs world a → Occurs world b → ¬ Collision ext (a.preimages ext) (b.preimages ext)
  nonces : ∀ i now, world i = .up now → Mempool.NoncesFit now.node.mempool.transactions

theorem Orderly.free (orderly : Orderly ext world) : CollisionFree ext world := fun a b occursA occursB same =>
  digest_injective (orderly.apart a b occursA occursB) List.mem_cons_self List.mem_cons_self same

section agreement
variable (federation : Federation ext config) (safe : Safe ext config world) (orderly : Orderly ext world) {i j : ι}
  {a b : Node} (memoryA : (world i).memory? = some a) (memoryB : (world j).memory? = some b)
include federation safe orderly memoryA memoryB

theorem Safe.same_transactions {k : Nat} {x y : Block} (at_a : a.blockchain.chain[k]? = some x)
    (at_b : b.blockchain.chain[k]? = some y) :
    x.transactions.map Transaction.content = y.transactions.map Transaction.content := by
  obtain ⟨genesisA,createdA,grownA⟩ := (safe.memory memoryA).1.grown
  obtain ⟨genesisB,createdB,grownB⟩ := (safe.memory memoryB).1.grown
  by_cases first : k = 0
  · subst first
    rw [grownA.first_at,Option.some.injEq] at at_a
    rw [grownB.first_at,Option.some.injEq] at at_b
    rw [federation.genesisKey j i,createdA,Except.ok.injEq] at createdB
    rw [← at_a,← at_b,createdB]
  · have later := Nat.one_le_iff_ne_zero.mpr first
    exact (Block.sameContent (grownA.extends_at later at_a).verified (grownB.extends_at later at_b).verified
      (safe.agree_at federation orderly.free memoryA memoryB at_a at_b)
      (orderly.apart x y (.held memoryA (List.mem_of_getElem? at_a))
        (.held memoryB (List.mem_of_getElem? at_b)))).transactions

theorem Safe.same_ledger (allocations : (config i).genesisAllocations = (config j).genesisAllocations) {k : Nat}
    (insideA : k ≤ a.blockchain.chain.length) (insideB : k ≤ b.blockchain.chain.length) :
    ledgerOf (config i).genesisAllocations (a.blockchain.chain.take k) =
      ledgerOf (config j).genesisAllocations (b.blockchain.chain.take k) := by
  rw [allocations]
  apply ledgerOf_content
  rw [List.forall₂_iff_get]
  refine ⟨by rw [List.length_take_of_le insideA,List.length_take_of_le insideB],fun l belowA belowB => ?_⟩
  rw [List.get_eq_getElem,List.get_eq_getElem,List.getElem_take,List.getElem_take]
  exact safe.same_transactions federation orderly memoryA memoryB (List.getElem?_eq_getElem _)
    (List.getElem?_eq_getElem _)

end agreement

variable [DecidableEq ι]

theorem sent_step {owner : ι} {send : Send} (said : send ∈ (world owner).sent) (i : ι) (action : Action) :
    send ∈ (Function.update world i ((world i).step ext (config i) action) owner).sent := by
  by_cases same : owner = i
  · subst same
    rw [Function.update_self]
    exact Process.step_sent ext (config owner) _ action said
  · rwa [Function.update_of_ne same]

/-- The global states that are reached through orderly ones. -/
inductive OrderlyReachable (ext : Externals) (config : ι → Config) : (ι → Process) → Prop
  | start : OrderlyReachable ext config fun _ => .initial
  | step {world : ι → Process} (reached : OrderlyReachable ext config world) (i : ι) (action : Action)
      (possible : Possible ext config world i action)
      (orderly : Orderly ext (Function.update world i ((world i).step ext (config i) action))) :
      OrderlyReachable ext config (Function.update world i ((world i).step ext (config i) action))

theorem OrderlyReachable.reachable (reached : OrderlyReachable ext config world) : Reachable ext config world := by
  induction reached with
  | start => exact .start
  | step _ i action possible _ ih => exact .step ih i action possible

theorem OrderlyReachable.orderly (reached : OrderlyReachable ext config world) : Orderly ext world := by
  cases reached with
  | start =>
    refine ⟨fun a b occurs _ => ?_,fun i now up => by cases up⟩
    cases occurs with
    | held memory _ => cases memory
    | sent said _ => cases said
  | step _ i action _ orderly => exact orderly

/-- A block that a node takes from a message was made by its authority, which had a ledger to pay for it. -/
theorem Safe.pays_brought (parses : ext.ParseUndoesDump) (federation : Federation ext config)
    (allocations : ∀ i j, (config i).genesisAllocations = (config j).genesisAllocations)
    (safe : Safe ext config world)
    (executed : ∀ i node, (world i).memory? = some node → Executed (config i).genesisAllocations node.blockchain.chain)
    {i : ι} {action : Action} (possible : Possible ext config world i action)
    (orderly : Orderly ext (Function.update world i ((world i).step ext (config i) action))) {now : Snapshot}
    (up : world i = .up now) {node : Node} (memory : ((world i).step ext (config i) action).memory? = some node)
    {k : Nat} (positive : 1 ≤ k) (new : now.node.blockchain.chain.length ≤ k) {block : Block}
    (at_k : node.blockchain.chain[k]? = some block) {msg : Message} (brings : action.Brings ext msg)
    (carries : msg.Carries block) :
    ∃ final, StateManager.Pays (ledgerOf (config i).genesisAllocations (node.blockchain.chain.take k))
      block.transactions final := by
  have safe' := safe.step parses federation possible
  have memory' : (Function.update world i ((world i).step ext (config i) action) i).memory? = some node := by
    rw [Function.update_self]
    exact memory
  have configured := (safe'.memory memory').1
  obtain ⟨genesis,created,grown⟩ := configured.grown
  have valid := grown.extends_at positive at_k
  have index := grown.index_at created at_k
  have authority : block.validator ∈ (config i).authorities := by
    rw [valid.scheduled _ rfl,← configured.authorities]
    exact node.consensus.getProducer_mem _
  obtain ⟨owner,signs,-⟩ := federation.owned i _ authority
  have derived := ((verifyBlock_iff ext block).mp valid.verified).1
  have key := possible.apart msg brings block carries owner (derived.trans signs.symm)
  obtain ⟨send,said,own,carried,same⟩ := possible.unforged msg brings block carries valid.verified
    (by rw [index]; exact positive) owner (by rw [signs]; exact authority) key
  -- what its owner handed out is on the owner's chain, at the same place
  obtain ⟨theirs,held,at_own⟩ := safe.handed_at said carried
  obtain ⟨genesis',created',grown'⟩ := (safe.memory held).1.grown
  have headers := orderly.free own block (.sent (sent_step said i action) carried)
    (.held memory' (List.mem_of_getElem? at_k))
    ((grown'.hash_at created' at_own).trans (same.trans (grown.hash_at created at_k).symm))
  rw [(headerPreimage_injective ext headers).1,index] at at_own
  by_cases self : owner = i
  · subst self
    rw [up] at held
    obtain rfl := Option.some.inj held
    exact absurd (List.getElem?_eq_some_iff.mp at_own).1 (Nat.not_lt.mpr new)
  · have held' : (Function.update world i ((world i).step ext (config i) action) owner).memory? = some theirs := by
      rw [Function.update_of_ne self]
      exact held
    obtain ⟨final,pays⟩ := executed owner theirs held k positive own at_own
    rw [← safe'.same_ledger federation orderly held' memory' (allocations owner i)
      (List.getElem?_eq_some_iff.mp at_own).1.le (List.getElem?_eq_some_iff.mp at_k).1.le]
    exact ⟨final,pays.content (safe'.same_transactions federation orderly held' memory' at_own at_k)⟩

/-- All chains of a federation were executed block by block. -/
theorem OrderlyReachable.executed (parses : ext.ParseUndoesDump) (federation : Federation ext config)
    (allocations : ∀ i j, (config i).genesisAllocations = (config j).genesisAllocations)
    (fits : ∀ i, StateManager.allocated (config i).genesisAllocations < 2 ^ 64)
    (reached : OrderlyReachable ext config world) {i : ι} {node : Node} (memory : (world i).memory? = some node) :
    Executed (config i).genesisAllocations node.blockchain.chain := by
  induction reached generalizing i node with
  | start => cases memory
  | @step world reached j action possible orderly ih =>
    have safe := reached.reachable.safe parses federation
    by_cases other : i ≠ j
    · rw [Function.update_of_ne other] at memory
      exact ih memory
    obtain rfl : i = j := not_ne_iff.mp other
    rw [Function.update_self] at memory
    cases state : world i with
    | down held disk sent log =>
      rw [state] at memory
      cases boots : action.boots with
      | false =>
        rw [Process.step_down _ _ _ _ boots] at memory
        exact ih (by rw [state]; exact memory)
      | true =>
        cases action with
        | boot fates =>
          have remains := safe i
          rw [state] at remains
          rcases Remains.boot_memory parses (federation.persistent i) remains possible.calm memory with
            one | ⟨before,same,part⟩
          · exact .single one
          · exact Executed.of_start (ih (by rw [state]; exact same)) part
        | _ => cases boots
    | up now =>
      have executed : Executed (config i).genesisAllocations now.node.blockchain.chain := ih (by rw [state]; rfl)
      by_cases producing : ∃ clock orders fates, action = .produceBlock clock orders fates
      · obtain ⟨clock,orders,fates,rfl⟩ := producing
        have sound : Sound ext (config i) now.node := by
          have holds := safe i
          rw [state] at holds
          exact holds.sound
        rw [state] at memory
        rcases Process.produceBlock_memory sound (reached.orderly.nonces i now state)
          (by rw [sound.ledger,supply_ledgerOf (fits i)]; exact fits i) orders clock fates memory with
          same | ⟨block,final,longer,pays⟩
        · rw [same]
          exact executed
        · rw [longer]
          rw [sound.ledger] at pays
          exact executed.append pays
      · have stepped : ((Process.up now).step ext (config i) action).memory? = some node := state ▸ memory
        obtain ⟨more,longer,brought⟩ := Process.step_brought
          (fun clock orders fates same => producing ⟨clock,orders,fates,same⟩) stepped
        refine executed.extend ⟨more,longer.symm⟩ fun k new positive block at_k => ?_
        have member : block ∈ more := by
          have found := at_k
          rw [longer,List.getElem?_append_right new] at found
          exact List.mem_of_getElem? found
        obtain ⟨msg,brings,carries⟩ := brought block member
        exact safe.pays_brought parses federation allocations (fun _ _ => ih) possible orderly state memory positive new
          at_k brings carries

/-- In a federation every block on every chain was applied, no coin appears or is lost, and what a node
has on its books is what any other node had at that height. -/
theorem federation_executes (parses : ext.ParseUndoesDump) (federation : Federation ext config)
    (allocations : ∀ i j, (config i).genesisAllocations = (config j).genesisAllocations)
    (fits : ∀ i, StateManager.allocated (config i).genesisAllocations < 2 ^ 64)
    (reached : OrderlyReachable ext config world) {i : ι} {node : Node} (running : (world i).node? = some node) :
    Agrees (config i) node ∧
    StateManager.supply node.state.accounts = StateManager.allocated (config i).genesisAllocations ∧
    ∀ j other, (world j).node? = some other → other.blockchain.chain.length ≤ node.blockchain.chain.length →
      other.state.accounts =
        ledgerOf (config i).genesisAllocations (node.blockchain.chain.take other.blockchain.chain.length) := by
  have safe := reached.reachable.safe parses federation
  have up {j : ι} {other : Node} (running : (world j).node? = some other) :
      (world j).memory? = some other ∧ Sound ext (config j) other := by
    obtain ⟨now,state,rfl,persisted⟩ := (safe j).node running
    exact ⟨by rw [state]; rfl,persisted.sound⟩
  obtain ⟨memory,sound⟩ := up running
  refine ⟨?_,?_,fun j other running' below => ?_⟩
  · rw [Agrees,sound.ledger]
    exact (reached.executed parses federation allocations fits memory).replays
  · rw [sound.ledger,supply_ledgerOf (fits i)]
  · obtain ⟨memory',sound'⟩ := up running'
    rw [safe.same_ledger federation reached.orderly memory memory' (allocations i j) below (Nat.le_refl _),
      List.take_length,sound'.ledger]

end network

namespace Reference

/-- Where the chains hold nothing but the genesis block and the one with the payment, no texts collide. -/
theorem pair_orderly {world : Bool → Process} (reachable : Reachable libraries pair world)
    (known : ∀ i, (world i).memory?.all (fun node => node.blockchain.chain ⊆ [genesis,paying]) = true ∧
      (world i).node?.all (fun node => Mempool.NoncesFit node.mempool.transactions) = true) :
    Orderly libraries world := by
  have safe := reachable.safe libraries_parse pair_federation
  have held {i : Bool} {node : Node} {block : Block} (memory : (world i).memory? = some node)
      (member : block ∈ node.blockchain.chain) : block ∈ [genesis,paying] :=
    of_decide_eq_true ((Option.all_eq_true _ _).mp (known i).1 node memory) member
  have occurring {block : Block} (occurs : Occurs world block) : block ∈ [genesis,paying] := by
    cases occurs with
    | held memory member => exact held memory member
    | sent said carries =>
      obtain ⟨node,memory,at_index⟩ := safe.handed_at said carries
      exact held memory (List.mem_of_getElem? at_index)
  have apart : ∀ a ∈ [genesis,paying], ∀ b ∈ [genesis,paying], ∀ x ∈ a.preimages libraries,
      ∀ y ∈ b.preimages libraries, libraries.sha256 x = libraries.sha256 y → x = y := by decide +kernel
  refine ⟨fun a b occursA occursB => ?_,fun i now up => ?_⟩
  · rintro ⟨x,inA,y,inB,differ,same⟩
    exact differ (apart a (occurring occursA) b (occurring occursB) x inA y inB same)
  · exact of_decide_eq_true ((Option.all_eq_true _ _).mp (known i).2 now.node (by rw [up]; rfl))

/-- The validator takes a payment and puts it into a block. -/
def spending : List Action := [.boot []] ++ [.submitTransaction payment] ++ [.produceBlock 1 arrival []]

theorem pair_spending : OrderlyReachable libraries pair (pairWorld spending [.boot []]) := by
  have onward {validator : List Action} {action : Action}
      (reached : OrderlyReachable libraries pair (pairWorld validator [.boot []])) (calm : action.fates = [])
      (local_only : ∀ msg, ¬ action.Brings libraries msg)
      (known : ∀ i, (pairWorld (validator ++ [action]) [.boot []] i).memory?.all
          (fun node => node.blockchain.chain ⊆ [genesis,paying]) = true ∧
        (pairWorld (validator ++ [action]) [.boot []] i).node?.all
          (fun node => Mempool.NoncesFit node.mempool.transactions) = true) :
      OrderlyReachable libraries pair (pairWorld (validator ++ [action]) [.boot []]) := by
    have possible : Possible libraries pair (pairWorld validator [.boot []]) true action :=
      possible_local (by rw [calm]; exact List.forall_mem_nil _) local_only
    have orderly := pair_orderly (pair_validator reached.reachable possible) known
    rw [pairWorld_concat] at orderly ⊢
    exact .step reached true action possible orderly
  have started : OrderlyReachable libraries pair (pairWorld [] [.boot []]) := by
    have booted : pairWorld [] [.boot []] = Function.update (fun _ => Process.initial) false
        (Process.initial.step libraries (pair false) (.boot [])) := by
      funext i
      cases i <;> rfl
    have possible : Possible libraries pair (fun _ => Process.initial) false (.boot []) :=
      possible_local (List.forall_mem_nil _) fun _ => id
    have orderly := pair_orderly (.step .start false (.boot []) possible) (by rw [← booted]; decide +kernel)
    rw [booted]
    exact .step .start false (.boot []) possible orderly
  exact onward (onward (onward started rfl (fun _ => id) (by decide +kernel)) rfl (fun _ => id) (by decide +kernel)) rfl
    (fun _ => id) (by decide +kernel)

end Reference

open Reference in
/-- The payment is on the books of the validator, and no coin is lost. -/
theorem federation_executes_spending : ∃ node, (pairWorld spending [.boot []] true).node? = some node ∧
    node.blockchain.chain = [genesis,paying] ∧ Agrees (pair true) node ∧
    StateManager.supply node.state.accounts = StateManager.allocated funded := by
  have ran : (pairWorld spending [.boot []] true).node?.any (fun node => node.blockchain.chain = [genesis,paying]) =
      true := by decide +kernel
  obtain ⟨node,running,chain⟩ := (Option.any_eq_true _ _).mp ran
  have allocations : ∀ i j, (pair i).genesisAllocations = (pair j).genesisAllocations := fun _ _ => rfl
  have fits : ∀ i, StateManager.allocated (pair i).genesisAllocations < 2 ^ 64 := by decide +kernel
  obtain ⟨agrees,supply,-⟩ :=
    federation_executes libraries_parse pair_federation allocations fits pair_spending running
  exact ⟨node,running,of_decide_eq_true chain,agrees,supply⟩

end TitanCore
