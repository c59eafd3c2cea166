import TitanCore.MempoolConsistency
import TitanCore.NodeRun

/-! What holds of a node between any two sections of any run: its chain grew by checked
blocks, its ledger is that chain replayed, and its pool agrees with the ledger. -/
namespace TitanCore

/-- Apply a block if `applyBlock` accepts it, else keep the accounts. -/
def ledgerStep (accounts : Accounts) (block : Block) : Accounts :=
  match StateManager.applyBlock ⟨accounts,[]⟩ block with
  | (true,state) => state.accounts
  | (false,_) => accounts

def ledgerOf (genesisAllocations : AddressMap UInt64) (chain : List Block) : Accounts :=
  chain.tail.foldl ledgerStep (StateManager.create genesisAllocations).accounts

/-- The chains `addBlock` can build on a genesis block. -/
inductive Grown (ext : Externals) (consensus : Option PoAConsensus) (genesis : Block) :
    List Block → Prop
  | genesis : Grown ext consensus genesis [genesis]
  | append {chain : List Block} {block : Block} (grown : Grown ext consensus genesis chain)
      (valid : Blockchain.Extends ext consensus chain block) :
      Grown ext consensus genesis (chain ++ [block])

theorem applyBlock_accounts (state : StateManager) (block : Block) :
    (state.applyBlock block).2.accounts = ledgerStep state.accounts block := by
  unfold ledgerStep StateManager.applyBlock
  cases StateManager.applyTransactions 0 state.accounts block.transactions <;> rfl

theorem ledgerOf_append (genesisAllocations : AddressMap UInt64) {chain : List Block}
    (nonempty : chain ≠ []) (block : Block) :
    ledgerOf genesisAllocations (chain ++ [block]) =
      ledgerStep (ledgerOf genesisAllocations chain) block := by
  simp [ledgerOf,List.tail_append_of_ne_nil nonempty,List.foldl_append]

theorem Grown.nonempty {ext : Externals} {consensus : Option PoAConsensus} {genesis : Block}
    {chain : List Block} (grown : Grown ext consensus genesis chain) : chain ≠ [] := by
  cases grown <;> simp

section grown
variable {ext : Externals} {consensus : Option PoAConsensus} {genesis : Block} {chain : List Block}

theorem Grown.index_lt (grown : Grown ext consensus genesis chain) (first : genesis.index = 0)
    {block : Block} (member : block ∈ chain) : block.index.toNat < chain.length := by
  induction grown with
  | genesis =>
    rw [List.mem_singleton.mp member,first]
    exact Nat.one_pos
  | append _ valid ih =>
    rw [List.length_append,List.length_singleton]
    rcases List.mem_append.mp member with earlier | last
    · exact Nat.lt_succ_of_lt (ih earlier)
    · rw [List.mem_singleton.mp last,valid.index]
      exact Nat.lt_succ_self _

theorem Grown.nodup (grown : Grown ext consensus genesis chain) (first : genesis.index = 0) :
    chain.Nodup := by
  induction grown with
  | genesis => exact List.nodup_singleton genesis
  | append grown valid ih =>
    rw [List.nodup_append_comm,List.singleton_append,List.nodup_cons]
    refine ⟨fun member => ?_,ih⟩
    have below := grown.index_lt first member
    rw [valid.index] at below
    exact absurd below (Nat.lt_irrefl _)

end grown
structure Configured (ext : Externals) (config : Config) (node : Node) : Prop where
  nodeKeys : node.nodeKeys = config.nodeKeys
  nodeAddr : node.nodeAddr = deriveAddress ext config.nodeKeys.publicKey
  consensus : node.blockchain.consensus = some node.consensus
  authorities : node.consensus.authorities = config.authorities
  storage : node.storage.isSome = config.persistent
  grown : ∃ genesis, createGenesisBlock ext config.genesisValidatorKeys = .ok genesis ∧
    Grown ext (some node.consensus) genesis node.blockchain.chain

structure Sound (ext : Externals) (config : Config) (node : Node) : Prop where
  configured : Configured ext config node
  ledger : node.state.accounts = ledgerOf config.genesisAllocations node.blockchain.chain
  pool : Mempool.Consistent ext node.state node.mempool

/-- The block is on the chain and not yet in the ledger. -/
structure Lagging (ext : Externals) (config : Config) (block : Block) (node : Node) : Prop where
  configured : Configured ext config node
  ledger : ∃ older, older ≠ [] ∧ node.blockchain.chain = older ++ [block] ∧
    node.state.accounts = ledgerOf config.genesisAllocations older

/-- Chain and ledger agree again, the pool does not yet. -/
structure Settled (ext : Externals) (config : Config) (node : Node) : Prop where
  configured : Configured ext config node
  ledger : node.state.accounts = ledgerOf config.genesisAllocations node.blockchain.chain

section
variable {ext : Externals} {config : Config} {node : Node}

theorem Configured.frame (configured : Configured ext config node) (state : StateManager)
    (mempool : Mempool) (lastError : Bytes) :
    Configured ext config { node with state, mempool, lastError } :=
  ⟨configured.nodeKeys,configured.nodeAddr,configured.consensus,configured.authorities,
    configured.storage,configured.grown⟩

theorem Configured.withStorage (configured : Configured ext config node) {storage : Storage}
    (held : node.storage = some storage) (saved : Storage) :
    Configured ext config (node.withStorage saved) :=
  ⟨configured.nodeKeys,configured.nodeAddr,configured.consensus,configured.authorities,
    by rw [← configured.storage,held]; rfl,configured.grown⟩

theorem Configured.addBlock (configured : Configured ext config node) (block : Block) :
    Configured ext config (node.addBlock ext block) := by
  obtain ⟨genesis,created,grown⟩ := configured.grown
  refine ⟨configured.nodeKeys,configured.nodeAddr,?_,configured.authorities,configured.storage,
    genesis,created,?_⟩
  · exact (Blockchain.addBlock_consensus ext _ block).trans configured.consensus
  · change Grown ext (some node.consensus) genesis (node.blockchain.addBlock ext block).2.chain
    rcases Blockchain.addBlock_cases ext node.blockchain block with ⟨-,valid,longer,-⟩ | ⟨-,-,same,-⟩
    · rw [configured.consensus] at valid
      rw [longer]
      exact .append grown valid
    · rw [same]
      exact grown

theorem Sound.refused (sound : Sound ext config node) {block : Block}
    (refused : (node.blockchain.addBlock ext block).1 = false) :
    Sound ext config (node.addBlock ext block) := by
  refine ⟨sound.configured.addBlock block,?_,sound.pool⟩
  change node.state.accounts =
    ledgerOf config.genesisAllocations (node.blockchain.addBlock ext block).2.chain
  rw [Blockchain.addBlock_refused ext _ _ refused]
  exact sound.ledger

theorem Sound.appended (sound : Sound ext config node) {block : Block}
    (accepted : (node.blockchain.addBlock ext block).1 = true) :
    Lagging ext config block (node.addBlock ext block) :=
  ⟨sound.configured.addBlock block,node.blockchain.chain,node.blockchain.nonempty,
    (Blockchain.addBlock_accepted ext _ _ accepted).2,sound.ledger⟩

theorem Lagging.applied {block : Block} (lagging : Lagging ext config block node) :
    Settled ext config (node.applyBlock block) := by
  refine ⟨lagging.configured.frame _ _ _,?_⟩
  obtain ⟨older,nonempty,chain,ledger⟩ := lagging.ledger
  change (node.state.applyBlock block).2.accounts =
    ledgerOf config.genesisAllocations node.blockchain.chain
  rw [applyBlock_accounts,chain,ledgerOf_append _ nonempty,ledger]

theorem Settled.cleaned (settled : Settled ext config node) (block : Block)
    (orders : Nat → IterationOrder) :
    Sound ext config ((node.removeMinedTransactions block).revalidate ext orders) :=
  ⟨settled.configured.frame _ _ _,settled.ledger,Mempool.revalidate_consistent ext _ _ _⟩

theorem Sound.withStorage (sound : Sound ext config node) {storage : Storage}
    (held : node.storage = some storage) (saved : Storage) :
    Sound ext config (node.withStorage saved) :=
  ⟨sound.configured.withStorage held saved,sound.ledger,sound.pool⟩

end

def OfNode (holds : Node → Prop) (now : Snapshot) : Prop := holds now.node

section
variable (ext : Externals) (config : Config)

theorem Sound.acceptance (orders : Nat → IterationOrder) (block : Block) :
    Acceptance ext (fun _ => True) orders block
      (Process.afterwards (OfNode (Sound ext config)) fun _ _ _ _ => True)
      (OfNode (Sound ext config)) (OfNode (Lagging ext config block))
      (OfNode (Settled ext config)) (OfNode (Sound ext config)) (OfNode (Sound ext config))
      (OfNode (Sound ext config)) (OfNode (Sound ext config)) where
  refuse := fun _ sound refused => Sound.refused sound refused
  append := fun _ sound accepted => Sound.appended sound accepted
  apply := fun _ lagging => Lagging.applied lagging
  clean := fun _ settled => Settled.cleaned settled block orders
  save := fun _ _ _ after sound held _ => Sound.withStorage sound held after
  count := fun _ _ _ after sound held _ => Sound.withStorage sound held after
  account := fun _ _ _ _ _ after sound held _ => Sound.withStorage sound held after
  complete := fun _ _ sound _ => sound
  memory := fun _ sound _ => sound
  crash := fun _ _ _ => trivial
  fail := fun _ _ _ _ stages => by rcases stages with sound | sound | sound <;> exact sound

theorem Sound.stable : Stable ext (fun _ => True) (fun _ => True) (fun _ => True) (OfNode (Sound ext config))
    (Process.afterwards (OfNode (Sound ext config)) fun _ _ _ _ => True) where
  interrupt := fun _ _ sound => sound
  admission := fun tx _ sound => ⟨sound.configured.frame _ _ _,sound.ledger,
    Mempool.addTransaction_consistent sound.pool tx⟩
  blame := fun _ _ sound => ⟨sound.configured.frame _ _ _,sound.ledger,sound.pool⟩
  reply := fun _ _ _ sound _ _ => sound
  ordinary := fun _ _ => trivial
  produce := fun _ _ _ _ _ _ => ⟨trivial,trivial⟩
  accept := fun orders block _ => ⟨_,_,_,_,_,Sound.acceptance ext config orders block⟩

theorem construct_sound {disk : Storage} {node : Node}
    (built : construct ext config disk = .ok node) :
    Sound ext config node ∧ node.mempool = Mempool.empty ∧
      (∃ genesis, node.blockchain.chain = [genesis]) ∧
      node.storage = if config.persistent then some disk else none := by
  unfold construct at built
  cases authorities : PoAConsensus.create config.authorities with
  | error e => rw [authorities] at built; cases built
  | ok consensus =>
    cases blockchain : Blockchain.create ext config.genesisValidatorKeys (some consensus) with
    | error e => rw [authorities,ok_bind,blockchain] at built; cases built
    | ok initial =>
      rw [authorities,ok_bind,blockchain] at built
      cases built
      unfold Blockchain.create at blockchain
      cases created : createGenesisBlock ext config.genesisValidatorKeys with
      | error e => rw [created] at blockchain; cases blockchain
      | ok genesis =>
        rw [created] at blockchain
        cases blockchain
        refine ⟨⟨⟨rfl,rfl,rfl,?_,?_,genesis,created,.genesis⟩,rfl,
          Mempool.empty_consistent ext _⟩,rfl,⟨genesis,rfl⟩,rfl⟩
        · unfold PoAConsensus.create at authorities
          split at authorities <;> cases authorities
          rfl
        · dsimp only
          cases config.persistent <;> rfl

/-- During a replay the pool is empty, which agrees with every ledger. -/
structure Replaying (node : Node) : Prop where
  sound : Sound ext config node
  pool : node.mempool = Mempool.empty

theorem Replaying.recovery (stop : Nat) (halt : Interrupt → Snapshot → Prop)
    (halts : ∀ reason now, halt reason now) :
    Recovery ext (fun _ => True) halt stop (fun _ => OfNode (Replaying ext config))
      (fun _ _ => True) (OfNode (Sound ext config)) where
  unreadable := fun _ _ _ _ _ _ _ _ => halts _ _
  missing := fun _ _ _ _ replaying _ _ => replaying.sound
  refuse := fun _ _ _ _ _ replaying _ _ refused => Sound.refused replaying.sound refused
  append := fun _ now _ block _ replaying _ _ accepted after same => by
    subst same
    have settled := (Sound.appended replaying.sound accepted).applied
    refine ⟨trivial,⟨settled.configured,settled.ledger,?_⟩,replaying.pool⟩
    change Mempool.Consistent ext _ now.node.mempool
    rw [replaying.pool]
    exact Mempool.empty_consistent ext _
  finish := fun _ replaying => replaying.sound
  memory := fun _ _ replaying _ => replaying.sound
  crash := fun _ _ _ _ => halts _ _

theorem Sound.lasting : Process.Lasting ext config (fun _ => True) (fun _ => True) (fun _ => True)
    (OfNode (Sound ext config)) fun _ _ _ _ => True where
  stable := Sound.stable ext config
  boot := fun _ disk sent log node _ built => by
    obtain ⟨sound,pool,-⟩ := construct_sound ext config built
    refine recoverFromStorage_spec ?_ (fun _ _ _ _ _ _ => trivial) ?_ ?_
    · rintro now rfl _; exact sound
    · rintro now _ _ rfl _ _ _; exact sound
    · rintro now _ _ rfl _ _ _
      exact ⟨_,_,Replaying.recovery ext config _ _ fun _ _ => trivial,sound,pool⟩
  kill := fun _ _ => trivial
  queue := fun _ _ sound _ _ => sound
  broadcast := fun _ _ _ sound _ => sound

/-- Every reachable state between two sections, whatever the fates. -/
theorem run_sound (actions : List Action) :
    (Process.run ext config actions).Holds (OfNode (Sound ext config)) fun _ _ _ _ => True :=
  (Sound.lasting ext config).run_holds trivial actions fun _ _ _ _ => trivial

end

/-- Between sections the pool continues the ledger, as long as the nonces of the address fit in
64 bits: the pending nonces follow the confirmed one without gap or repetition, and what is not
promised yet is what the pool still grants. -/
theorem pool_continues_ledger (ext : Externals) (config : Config) (actions : List Action)
    (node : Node) (reached : (Process.run ext config actions).node? = some node) (address : Address)
    (fits : (node.state.getNonce address).toNat + (node.mempool.pendingOf address).card < 2 ^ 64) :
    (node.mempool.pendingOf address).map (fun tx => tx.nonce.toNat) =
      (List.range' (node.state.getNonce address).toNat (node.mempool.pendingOf address).card :
        List Nat) ∧
    (node.mempool.getPendingNonce node.state address).toNat =
      (node.state.getNonce address).toNat + (node.mempool.pendingOf address).card ∧
    (node.mempool.getPendingBalance node.state address).toNat +
      Mempool.amountSum (node.mempool.pendingOf address) = (node.state.getBalance address).toNat ∧
    (0 < (node.mempool.pendingOf address).card → node.state.accountExists address = true) ∧
    ∀ hash tx, node.mempool.pending.lookup hash = some tx →
      verifyTransaction ext tx = true ∧ tx.hash = hash := by
  obtain ⟨now,-,rfl,sound⟩ := (run_sound ext config actions).node reached
  have pool := sound.pool
  refine ⟨?_,?_,pool.balance address,fun some_pending => ?_,fun hash tx held => ?_⟩
  · rw [← Mempool.nonceRun_toNat fits,← pool.nonces,Multiset.map_map]
    rfl
  · rw [pool.nextNonce,UInt64.toNat_add,UInt64.toNat_ofNat',Nat.add_mod_mod,Nat.mod_eq_of_lt fits]
  · exact pool.account address (Multiset.card_pos.mp some_pending)
  · exact (pool.verified hash tx held).symm

open Reference in
theorem pool_continues_ledger_payment : ∃ node,
    (Process.run libraries (config observerKeys funded false)
      [.boot [],.submitTransaction payment]).node? = some node ∧
    (node.mempool.pendingOf validatorAddress).card = 1 ∧
    (node.mempool.getPendingNonce node.state validatorAddress).toNat = 1 := by
  have ran : (Process.run libraries (config observerKeys funded false)
      [.boot [],.submitTransaction payment]).node?.any (fun node =>
      (node.mempool.pendingOf validatorAddress).card = 1 ∧
      (node.state.getNonce validatorAddress).toNat = 0) = true := by decide +kernel
  obtain ⟨node,reached,holds⟩ := (Option.any_eq_true _ _).mp ran
  obtain ⟨one,fresh⟩ := of_decide_eq_true holds
  refine ⟨node,reached,one,?_⟩
  rw [(pool_continues_ledger _ _ _ node reached validatorAddress (by rw [one,fresh]; decide)).2.1,
    one,fresh]

end TitanCore
