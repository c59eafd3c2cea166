import TitanCore.NodeInvariant

/-! Sections that nothing disturbs: no write fails and the process does not die. A block that
extends the chain is then appended and applied, and a node whose turn it is produces one. -/
namespace TitanCore

def Undisturbed (fate : Fate) : Prop := fate = .proceed

structure Stands (consensus : Option PoAConsensus) (chain : List Block) (accounts : Accounts)
    (now : Snapshot) : Prop where
  consensus : now.node.blockchain.consensus = consensus
  chain : now.node.blockchain.chain = chain
  accounts : now.node.state.accounts = accounts

def Never (_ : Interrupt) (_ : Snapshot) : Prop := False

theorem Spec.returns {allowed : Fate → Prop} {pre : Snapshot → Prop} {x : NodeM α}
    {post : α → Snapshot → Prop} (spec : Spec allowed pre x post Never) (now : Snapshot)
    (start : pre now) {fates : List Fate} (each : ∀ fate ∈ fates, allowed fate) :
    ∃ a exec, x ⟨now,fates⟩ = (.ok a,exec) ∧ post a exec.now := by
  have outcome := spec ⟨now,fates⟩ ⟨each,start⟩
  cases result : x ⟨now,fates⟩ with
  | mk answer exec =>
    rw [result] at outcome
    cases answer with
    | ok a => exact ⟨a,exec,rfl,outcome.2⟩
    | error reason => exact outcome.elim

theorem Acceptance.accepts {ext : Externals} {allowed : Fate → Prop}
    {orders : Nat → IterationOrder} {block : Block} {halt : Interrupt → Snapshot → Prop}
    {rest appended applied cleaned stored counted kept : Snapshot → Prop}
    (proof : Acceptance ext allowed orders block halt rest appended applied cleaned stored counted
      kept) (valid : ∀ now, rest now → (now.node.blockchain.addBlock ext block).1 = true) :
    Spec allowed rest (acceptBlock ext orders block) (fun accepted now => accepted = true ∧ kept now)
      halt := by
  refine Spec.bind (addBlock_spec (fun _ => False) appended
    (fun possible now start => proof.crash possible now (.inl start)) (fun now start refused => ?_)
    proof.append) fun accepted => Spec.ite (fun yes => ?_) fun no => ?_
  · rw [valid now start] at refused
    cases refused
  · refine Spec.weaken appended ?_ fun now start => by simpa [yes] using start
    exact Spec.bind (applyBlock_spec (fun possible now start =>
      proof.crash possible now (.inr (.inl start))) proof.apply) fun _ =>
      Spec.bind proof.afterBlockAccepted_spec fun _ => Spec.pure fun _ h => ⟨rfl,h⟩
  · exact fun exec start => by simp [During,no] at start

section
variable {ext : Externals} {config : Config} {consensus : Option PoAConsensus} {chain : List Block}
  {accounts : Accounts}

theorem Stands.acceptance (orders : Nat → IterationOrder) (block : Block) :
    Acceptance ext Undisturbed orders block Never (Stands consensus chain accounts)
      (Stands consensus (chain ++ [block]) accounts)
      (Stands consensus (chain ++ [block]) (ledgerStep accounts block))
      (Stands consensus (chain ++ [block]) (ledgerStep accounts block))
      (Stands consensus (chain ++ [block]) (ledgerStep accounts block))
      (Stands consensus (chain ++ [block]) (ledgerStep accounts block))
      (Stands consensus (chain ++ [block]) (ledgerStep accounts block)) where
  refuse := fun now stands refused => ⟨(Blockchain.addBlock_consensus ext _ _).trans stands.consensus,
    (Blockchain.addBlock_refused ext _ _ refused).trans stands.chain,stands.accounts⟩
  append := fun now stands accepted => by
    refine ⟨(Blockchain.addBlock_consensus ext _ _).trans stands.consensus,?_,stands.accounts⟩
    rw [← stands.chain]
    exact (Blockchain.addBlock_accepted ext _ _ accepted).2
  apply := fun now stands => by
    refine ⟨stands.consensus,stands.chain,?_⟩
    rw [← stands.accounts]
    exact applyBlock_accounts now.node.state block
  clean := fun _ stands => ⟨stands.consensus,stands.chain,stands.accounts⟩
  save := fun _ _ _ _ stands _ _ => ⟨stands.consensus,stands.chain,stands.accounts⟩
  count := fun _ _ _ _ stands _ _ => ⟨stands.consensus,stands.chain,stands.accounts⟩
  account := fun _ _ _ _ _ _ stands _ _ => ⟨stands.consensus,stands.chain,stands.accounts⟩
  complete := fun _ _ stands _ => ⟨stands.consensus,stands.chain,stands.accounts⟩
  memory := fun _ stands _ => ⟨stands.consensus,stands.chain,stands.accounts⟩
  crash := fun possible => by cases possible
  fail := fun _ possible => by cases possible

theorem acceptBlock_extends (orders : Nat → IterationOrder) {block : Block}
    (valid : Blockchain.Extends ext consensus chain block) :
    Spec Undisturbed (Stands consensus chain accounts) (acceptBlock ext orders block)
      (fun accepted now => accepted = true ∧
        Stands consensus (chain ++ [block]) (ledgerStep accounts block) now) Never := by
  refine (Stands.acceptance orders block).accepts fun now stands => ?_
  apply Blockchain.addBlock_of_extends
  rw [stands.consensus,stands.chain]
  exact valid

theorem createGenesisBlock_index {keys : KeyPair} {genesis : Block}
    (created : createGenesisBlock ext keys = .ok genesis) : genesis.index = 0 := by
  obtain ⟨_,_,rfl⟩ := signBlock_ok ext created
  rfl

theorem createGenesisBlock_transactions {keys : KeyPair} {genesis : Block}
    (created : createGenesisBlock ext keys = .ok genesis) : genesis.transactions = [] := by
  obtain ⟨_,-,rfl⟩ := signBlock_ok ext created
  rfl

/-- Blocks are numbered by their position, so the last one tells the length. -/
theorem Grown.last_index {genesis latest : Block} (grown : Grown ext consensus genesis chain)
    (first : genesis.index = 0) (last : chain.getLast? = some latest) :
    latest.index.toNat + 1 = chain.length := by
  cases grown with
  | genesis =>
    rw [List.getLast?_singleton,Option.some.injEq] at last
    rw [← last,first]
    rfl
  | append _ valid =>
    rw [List.getLast?_concat,Option.some.injEq] at last
    rw [← last,valid.index,List.length_append]
    rfl

theorem Configured.latest_index {node : Node} (configured : Configured ext config node) :
    node.blockchain.getLatestBlock.index.toNat + 1 = node.blockchain.chain.length := by
  obtain ⟨genesis,created,grown⟩ := configured.grown
  exact grown.last_index (createGenesisBlock_index created)
    (Blockchain.getLatestBlock_eq node.blockchain)

theorem createBlock_extends {node : Node} (sound : Sound ext config node)
    (keys : config.nodeKeys.WellFormed ext)
    (turn : node.consensus.getProducer node.blockchain.getHeight = node.nodeAddr)
    (room : node.blockchain.chain.length + 1 < 2 ^ 64) (order : IterationOrder) (maxCount : Nat)
    (clock : UInt64) : ∃ block, createBlock ext node.nodeKeys node.blockchain.getLatestBlock
        (node.mempool.getTransactionsForBlock order maxCount) clock = .ok block ∧
      Blockchain.Extends ext node.blockchain.consensus node.blockchain.chain block := by
  obtain ⟨signature,signed,accepted⟩ := signBlock_wellFormed ext keys
    ⟨node.blockchain.getLatestBlock.index + 1,clock,node.blockchain.getLatestBlock.hash,
      deriveAddress ext config.nodeKeys.publicKey,config.nodeKeys.publicKey,
      node.mempool.getTransactionsForBlock order maxCount,[],zeroHash⟩
  have height : node.blockchain.getLatestBlock.index + 1 = node.blockchain.getHeight := by
    apply UInt64.toNat.inj
    have last := sound.configured.latest_index
    rw [Blockchain.getHeight_toNat,UInt64.toNat_add,UInt64.toNat_one,last,
      Nat.mod_eq_of_lt node.blockchain.bounded]
  refine ⟨_,by rw [sound.configured.nodeKeys]; exact signed,?_⟩
  constructor
  case index => rw [height,Blockchain.getHeight_toNat]
  case linked => exact ⟨_,Blockchain.getLatestBlock_eq _,rfl⟩
  case verified =>
    rw [verifyBlock_iff]
    refine ⟨rfl,rfl,accepted,fun tx chosen => ?_⟩
    obtain ⟨hash,held⟩ := Mempool.mem_transactions.mp (Mempool.mem_getTransactionsForBlock chosen)
    exact (sound.pool.verified hash tx held).2
  case scheduled =>
    intro poa member
    rw [sound.configured.consensus,Option.mem_some_iff] at member
    rw [← member,height,turn]
    exact sound.configured.nodeAddr.symm
  case room => exact room

theorem produceBlock_turn {node : Node} (sound : Sound ext config node)
    (keys : config.nodeKeys.WellFormed ext) (room : node.blockchain.chain.length + 1 < 2 ^ 64)
    (orders : Nat → IterationOrder) (clock : UInt64)
    (turn : node.consensus.getProducer node.blockchain.getHeight = node.nodeAddr) :
    Spec Undisturbed (fun now => now.node = node) (produceBlock ext orders clock)
      (fun deferred now => ∃ block,
        deferred = some ⟨.others none,.newBlock,block.toJson⟩ ∧
        Blockchain.Extends ext node.blockchain.consensus node.blockchain.chain block ∧
        Stands node.blockchain.consensus (node.blockchain.chain ++ [block])
          (ledgerStep node.state.accounts block) now) Never := by
  refine Spec.getNode_bind fun held exec start => ?_
  obtain rfl : node = held := start.2.1.symm.trans start.2.2
  obtain ⟨block,made,valid⟩ := createBlock_extends sound keys turn room
    (orders node.blockchain.chain.length) 100 clock
  refine Spec.ite (fun other => absurd turn other) (fun _ => ?_) exec start
  refine Spec.through (fun found now => found = block ∧ now.node = node)
    (Spec.lift (fun found ok now begun => ?_) fun e error => ?_) fun found => ?_
  · rw [made] at ok
    exact ⟨(Except.ok.inj ok).symm,begun.2⟩
  · rw [made] at error
    cases error
  intro exec start
  obtain rfl := start.2.1
  refine Spec.bind (acceptBlock_extends orders valid) (fun accepted => Spec.ite (fun _ => ?_)
    fun no => ?_) exec ⟨start.1,by rw [start.2.2],by rw [start.2.2],by rw [start.2.2]⟩
  · exact Spec.pure fun now outcome => ⟨found,rfl,valid,outcome.2⟩
  · exact fun exec outcome => absurd outcome.2.1 no

theorem produceBlock_wait {node : Node}
    (other : node.consensus.getProducer node.blockchain.getHeight ≠ node.nodeAddr)
    (orders : Nat → IterationOrder) (clock : UInt64) (now : Snapshot) (same : now.node = node)
    (fates : List Fate) : produceBlock ext orders clock ⟨now,fates⟩ = (.ok none,⟨now,fates⟩) := by
  subst same
  change (if now.node.consensus.getProducer now.node.blockchain.getHeight ≠ now.node.nodeAddr then
    (pure none : NodeM (Option Send)) else _) _ = _
  rw [if_pos other]
  rfl

theorem onGetBlocks_replies {payload : Json} {fromIndex : UInt64}
    (asked : (do (← payload.at? (str "from")).getUInt64) = Except.ok fromIndex) (fromPeer : Nat)
    (now : Snapshot) (fates : List Fate) :
    onGetBlocks payload fromPeer ⟨now,fates⟩ = (.ok none,⟨now.send (.peer fromPeer)
      ⟨.blocks,blocksPayload ((now.node.blockchain.chain.drop fromIndex.toNat).map Block.toJson)⟩,
      fates⟩) := by
  have height := now.node.blockchain.getHeight_toNat
  unfold onGetBlocks
  rw [asked]
  by_cases past : now.node.blockchain.getHeight ≤ fromIndex
  · have none_left : now.node.blockchain.chain.drop fromIndex.toNat = [] := by
      rw [UInt64.le_iff_toNat_le,height] at past
      exact List.drop_eq_nil_of_le past
    rw [none_left]
    change (if now.node.blockchain.getHeight ≤ fromIndex then _ else _ : NodeM (Option Send)) _ = _
    rw [if_pos past]
    rfl
  · have inside := past
    rw [UInt64.not_le,UInt64.lt_iff_toNat_lt,height] at inside
    change (if now.node.blockchain.getHeight ≤ fromIndex then _ else _ : NodeM (Option Send)) _ = _
    rw [if_neg past,height,collectBlocks_eq now.node.blockchain _ _ (Nat.add_sub_of_le inside.le)]
    rfl

end
end TitanCore
