import TitanCore.NodeFrames
import TitanCore.NodeRecovery

/-! Two nodes with one genesis and one list of authorities: what the one produces the other
accepts, and a node that asks for the blocks it lacks gets each of them once. -/
namespace TitanCore

section
variable {ext : Externals} {consensus : Option PoAConsensus} {chain : List Block} {accounts : Accounts}

theorem Stands.height {now : Snapshot} (stands : Stands consensus chain accounts now) :
    now.node.blockchain.getHeight.toNat = chain.length := by
  rw [Blockchain.getHeight_toNat,stands.chain]

/-- A block that is sure to be accepted is accepted from a peer, and passed on. -/
theorem onNewBlock_accepts {orders : Nat → IterationOrder} {block : Block} {rest kept : Snapshot → Prop}
    (accepts : Spec Undisturbed rest (acceptBlock ext orders block)
      (fun accepted now => accepted = true ∧ kept now) Never)
    (level : ∀ now, rest now → block.index = now.node.blockchain.getHeight) (fromPeer : Nat) :
    Spec Undisturbed rest (onNewBlock ext orders block.toJson fromPeer)
      (fun deferred now => deferred = some ⟨.others (some fromPeer),.newBlock,block.toJson⟩ ∧ kept now) Never := by
  refine Spec.through (fun found now => found = block ∧ rest now)
    (Spec.lift (fun found ok now start => ⟨?_,start⟩) fun e error => ?_) fun found =>
      Spec.getNode_bind fun node exec start => ?_
  · rw [blockFromJson_toJson] at ok
    exact (Except.ok.inj ok).symm
  · rw [blockFromJson_toJson] at error
    cases error
  obtain ⟨rfl,holds⟩ := start.2.1
  have height : found.index = node.blockchain.getHeight := by
    rw [level _ holds,start.2.2]
  refine Spec.ite (fun above => ?_) (fun _ => Spec.ite (fun below => ?_) fun _ => ?_) exec start
  · exact absurd above (by rw [height]; exact UInt64.lt_irrefl _)
  · exact absurd below (by rw [height]; exact UInt64.lt_irrefl _)
  · refine Spec.bind (Spec.weaken _ accepts fun _ h => h.1.2) fun accepted =>
      Spec.ite (fun _ => Spec.pure fun now outcome => ⟨rfl,outcome.2⟩) fun no exec outcome => ?_
    exact absurd outcome.2.1 no

theorem onNewBlock_extends (orders : Nat → IterationOrder) {block : Block}
    (valid : Blockchain.Extends ext consensus chain block) (fromPeer : Nat) :
    Spec Undisturbed (Stands consensus chain accounts)
      (onNewBlock ext orders block.toJson fromPeer)
      (fun deferred now => deferred = some ⟨.others (some fromPeer),.newBlock,block.toJson⟩ ∧
        Stands consensus (chain ++ [block]) (ledgerStep accounts block) now) Never := by
  refine onNewBlock_accepts (acceptBlock_extends orders valid) (fun now stands => ?_) fromPeer
  apply UInt64.toNat.inj
  rw [stands.height,valid.index]

theorem PoAConsensus.ext_authorities {a b : PoAConsensus} (same : a.authorities = b.authorities) : a = b := by
  obtain ⟨_,_⟩ := a
  obtain ⟨_,_⟩ := b
  cases same
  rfl

theorem Sound.of_run {config : Config} {actions : List Action} {node : Node}
    (reached : (Process.run ext config actions).node? = some node) : Sound ext config node := by
  obtain ⟨_,-,rfl,sound⟩ := (run_sound ext config actions).node reached
  exact sound

theorem Sound.same_schedule {configA configB : Config} {a b : Node} (soundA : Sound ext configA a)
    (soundB : Sound ext configB b) (authorities : configB.authorities = configA.authorities) :
    b.blockchain.consensus = some a.consensus := by
  rw [soundB.configured.consensus]
  refine congrArg some (PoAConsensus.ext_authorities ?_)
  rw [soundA.configured.authorities,soundB.configured.authorities,authorities]

/-- The node whose turn it is produces a block; every node with its chain accepts it and
stands where the producer stands. -/
theorem producer_validator_agree (parses : ext.ParseUndoesDump) {configA configB : Config}
    (keys : configA.nodeKeys.WellFormed ext)
    (authorities : configB.authorities = configA.authorities)
    (allocations : configB.genesisAllocations = configA.genesisAllocations)
    {actionsA actionsB : List Action} {nowA nowB : Snapshot}
    (reachedA : Process.run ext configA actionsA = .up nowA)
    (reachedB : Process.run ext configB actionsB = .up nowB)
    (same : nowB.node.blockchain.chain = nowA.node.blockchain.chain)
    (room : nowA.node.blockchain.chain.length + 1 < 2 ^ 64) (clock : UInt64)
    (ordersA ordersB : Nat → IterationOrder) (fromPeer : Nat) {fatesA fatesB : List Fate}
    (calmA : ∀ fate ∈ fatesA, Undisturbed fate) (calmB : ∀ fate ∈ fatesB, Undisturbed fate) :
    ∃ produced afterA, produceBlock ext ordersA clock ⟨nowA,fatesA⟩ = (.ok produced,afterA) ∧
      (produced.isSome = true ↔
        nowA.node.consensus.getProducer nowA.node.blockchain.getHeight = nowA.node.nodeAddr) ∧
      ∀ send, produced = some send →
        send.recipient = .others none ∧ send.message.type = .newBlock ∧
        ∃ payload afterB, ext.parseJson (ext.dump send.message.payload) = .ok payload ∧
          onNewBlock ext ordersB payload fromPeer ⟨nowB,fatesB⟩ =
            (.ok (some ⟨.others (some fromPeer),.newBlock,payload⟩),afterB) ∧
          afterB.now.node.blockchain.chain = afterA.now.node.blockchain.chain ∧
          afterB.now.node.state.accounts = afterA.now.node.state.accounts ∧
          afterA.now.node.blockchain.getHeight = nowA.node.blockchain.getHeight + 1 ∧
          afterB.now.node.blockchain.getHeight = nowB.node.blockchain.getHeight + 1 := by
  have soundA : Sound ext configA nowA.node := .of_run (by rw [reachedA]; rfl)
  have soundB : Sound ext configB nowB.node := .of_run (by rw [reachedB]; rfl)
  by_cases turn : nowA.node.consensus.getProducer nowA.node.blockchain.getHeight = nowA.node.nodeAddr
  · obtain ⟨produced,afterA,ran,block,rfl,valid,standsA⟩ :=
      (produceBlock_turn soundA keys room ordersA clock turn).returns nowA rfl calmA
    refine ⟨_,afterA,ran,by simp [turn],?_⟩
    rintro _ ⟨⟩
    -- the receiver checks the block against the same schedule and applies it to the same ledger
    have schedule : nowB.node.blockchain.consensus = nowA.node.blockchain.consensus := by
      rw [soundA.same_schedule soundB authorities,soundA.configured.consensus]
    have ledger : nowB.node.state.accounts = nowA.node.state.accounts := by
      rw [soundA.ledger,soundB.ledger,allocations,same]
    obtain ⟨deferred,afterB,received,rfl,standsB⟩ :=
      (onNewBlock_extends ordersB valid fromPeer).returns nowB ⟨schedule,same,ledger⟩ calmB
    refine ⟨rfl,rfl,block.toJson,afterB,ext.parseJson_dump parses block.canonical_toJson,received,?_,?_,
      ?_,?_⟩
    · rw [standsA.chain,standsB.chain]
    · rw [standsA.accounts,standsB.accounts]
    · apply UInt64.toNat.inj
      rw [standsA.height,UInt64.toNat_add,Blockchain.getHeight_toNat,UInt64.toNat_one,
        Nat.mod_eq_of_lt room,List.length_append]
      rfl
    · apply UInt64.toNat.inj
      rw [standsB.height,UInt64.toNat_add,Blockchain.getHeight_toNat,UInt64.toNat_one,same,
        Nat.mod_eq_of_lt room,List.length_append]
      rfl
  · refine ⟨none,⟨nowA,fatesA⟩,produceBlock_wait turn ordersA clock nowA rfl fatesA,by simp [turn],?_⟩
    rintro _ ⟨⟩

end

open Reference in
/-- The first block after the genesis block, made by the validator and received by an observer. -/
theorem producer_validator_agree_first : ∃ nowA nowB produced afterA,
    Process.run libraries (config validatorKeys funded false) [.boot []] = .up nowA ∧
    Process.run libraries (config observerKeys funded true) [.boot []] = .up nowB ∧
    produceBlock libraries arrival 1 ⟨nowA,[]⟩ = (.ok produced,afterA) ∧ produced.isSome = true ∧
    ∀ send, produced = some send → ∃ afterB : Exec,
      afterB.now.node.blockchain.chain = afterA.now.node.blockchain.chain ∧
      afterB.now.node.state.accounts = afterA.now.node.state.accounts ∧
      afterB.now.node.blockchain.getHeight = nowB.node.blockchain.getHeight + 1 := by
  have runA : (Process.run libraries (config validatorKeys funded false) [.boot []]).node?.any
      (fun node => node.blockchain.chain = [genesis] ∧
        node.consensus.getProducer node.blockchain.getHeight = node.nodeAddr) = true := by
    decide +kernel
  have runB : (Process.run libraries (config observerKeys funded true) [.boot []]).node?.any
      (fun node => node.blockchain.chain = [genesis]) = true := by decide +kernel
  obtain ⟨nowA,upA,factsA⟩ := Process.up_of_node runA
  obtain ⟨nowB,upB,factsB⟩ := Process.up_of_node runB
  obtain ⟨chainA,turn⟩ := of_decide_eq_true factsA
  have chainB := of_decide_eq_true factsB
  have authorities : (config observerKeys funded true).authorities =
      (config validatorKeys funded false).authorities := rfl
  obtain ⟨produced,afterA,ran,returns,accepts⟩ := producer_validator_agree libraries_parse
    validatorKeys_wellFormed authorities rfl upA upB (chainB.trans chainA.symm) (by rw [chainA]; decide) 1
    arrival arrival 0 (List.forall_mem_nil _) (List.forall_mem_nil _)
  refine ⟨nowA,nowB,produced,afterA,upA,upB,ran,returns.mpr turn,fun send sent => ?_⟩
  obtain ⟨-,-,_,afterB,-,-,chains,accounts,-,height⟩ := accepts send sent
  exact ⟨afterB,chains,accounts,height⟩

def appliedBlocks (log : List Event) : List Block := log.filterMap fun event =>
  match event with
  | .applied block _ _ _ => some block
  | _ => none

def Logged (blocks : List Block) (now : Snapshot) : Prop := appliedBlocks now.log = blocks

section sync
variable {ext : Externals} {consensus : Option PoAConsensus} {genesis : Block} {chain : List Block}
  {accounts : Accounts}

theorem Logged.record {blocks : List Block} {now : Snapshot} (logged : Logged blocks now) (event : Event) :
    Logged (blocks ++ appliedBlocks [event]) (now.record event) := by
  unfold Logged at logged ⊢
  rw [← logged]
  exact List.filterMap_append

theorem Logged.other {blocks : List Block} {now : Snapshot} (logged : Logged blocks now) {event : Event}
    (unrelated : appliedBlocks [event] = []) : Logged blocks (now.record event) := by
  have recorded := logged.record event
  rwa [unrelated,List.append_nil] at recorded

theorem Logged.acceptance (earlier : List Block) (orders : Nat → IterationOrder) (block : Block) :
    Acceptance ext Undisturbed orders block Never (Logged earlier) (Logged earlier)
      (Logged (earlier ++ [block])) (Logged (earlier ++ [block])) (Logged (earlier ++ [block]))
      (Logged (earlier ++ [block])) (Logged (earlier ++ [block])) where
  refuse := fun _ logged _ => logged
  append := fun _ logged _ => logged
  apply := fun now logged => by
    have applied : Logged earlier (now.onNode (Node.applyBlock block)) := logged
    exact applied.record _
  clean := fun _ logged => logged
  save := fun _ _ _ _ logged _ _ => logged
  count := fun now _ _ after logged _ _ => by
    have counted : Logged (earlier ++ [block]) (now.onNode (Node.withStorage after)) := logged
    exact counted.other rfl
  account := fun _ _ _ _ _ _ logged _ _ => logged
  complete := fun _ _ logged _ => logged.other rfl
  memory := fun _ logged _ => logged.other rfl
  crash := fun possible => by cases possible
  fail := fun _ possible => by cases possible

/-- A block that extends the chain is accepted and applied once. -/
theorem acceptBlock_logged (orders : Nat → IterationOrder) {block : Block} (earlier : List Block)
    (valid : Blockchain.Extends ext consensus chain block) :
    Spec Undisturbed (fun now => Stands consensus chain accounts now ∧ Logged earlier now)
      (acceptBlock ext orders block)
      (fun accepted now => accepted = true ∧
        Stands consensus (chain ++ [block]) (ledgerStep accounts block) now ∧
        Logged (earlier ++ [block]) now) Never := by
  refine ((Stands.acceptance orders block).both (Logged.acceptance earlier orders block)
    fun _ _ never _ => never).accepts fun now start => ?_
  apply Blockchain.addBlock_of_extends
  rw [start.1.consensus,start.1.chain]
  exact valid

/-- Where a sync ends: both chains are begun by the final one, which is one of them, and what
it adds was applied, once each. -/
structure Synced (source chain earlier : List Block) (now : Snapshot) : Prop where
  reached : source <+: now.node.blockchain.chain
  kept : chain <+: now.node.blockchain.chain
  one : now.node.blockchain.chain = chain ∨ now.node.blockchain.chain = source
  applied : appliedBlocks now.log = earlier ++ now.node.blockchain.chain.drop chain.length

/-- The loop over the blocks after `seen` of a chain that the node's chain begins or goes beyond. -/
theorem syncBlocks_synced (orders : Nat → IterationOrder) {source seen rest : List Block}
    (grown : Grown ext consensus genesis source) (parts : source = seen ++ rest) (begun : seen ≠ [])
    (overlap : seen.length ≤ chain.length) (comparable : chain <+: source ∨ source <+: chain)
    (earlier : List Block) :
    Spec Undisturbed (fun now => Stands consensus chain accounts now ∧ Logged earlier now)
      (syncBlocks ext orders (rest.map Block.toJson)) (fun _ => Synced source chain earlier)
      Never := by
  induction rest generalizing seen chain accounts earlier with
  | nil =>
    refine Spec.pure fun now start => ?_
    rw [List.append_nil] at parts
    have reached : source <+: chain := by
      rcases comparable with shorter | longer
      · rw [shorter.eq_of_length_le (by rw [parts]; exact overlap)]
      · exact longer
    have logged : appliedBlocks now.log = earlier := start.2
    rw [← start.1.chain] at reached ⊢
    exact ⟨reached,List.prefix_rfl,.inl rfl,by rw [logged,List.drop_length,List.append_nil]⟩
  | cons block rest ih =>
    have parts' : source = (seen ++ [block]) ++ rest := by rw [parts,List.append_assoc]; rfl
    have valid : Blockchain.Extends ext consensus seen block :=
      grown.extends_of_prefix begun (parts' ▸ List.prefix_append _ _)
    refine Spec.through (fun found now => found = block ∧ Stands consensus chain accounts now ∧
        Logged earlier now)
      (Spec.lift (fun found ok now start => ⟨?_,start⟩) fun e error => ?_) fun found =>
        Spec.getNode_bind fun node exec start => ?_
    · rw [blockFromJson_toJson] at ok
      exact (Except.ok.inj ok).symm
    · rw [blockFromJson_toJson] at error
      cases error
    obtain ⟨rfl,stands,logged⟩ := start.2.1
    have height : node.blockchain.getHeight.toNat = chain.length := by
      rw [← start.2.2]
      exact stands.height
    refine Spec.ite (fun known => ?_) (fun unknown => Spec.ite (fun gap => ?_) fun _ => ?_) exec start
    · -- the node has the block already
      rw [UInt64.lt_iff_toNat_lt,valid.index,height] at known
      refine Spec.weaken _ (ih parts' (by simp) ?_ comparable earlier) fun _ h => h.1.2
      rw [List.length_append]
      exact known
    · -- no gap: the node has everything before the block
      rw [UInt64.lt_iff_toNat_lt,valid.index,height] at unknown
      exact absurd (UInt64.toNat.inj (by rw [valid.index,height]; omega)) gap
    · rw [UInt64.lt_iff_toNat_lt,valid.index,height] at unknown
      have level : seen.length = chain.length := by omega
      have same : chain = seen := by
        rcases comparable with shorter | longer
        · refine List.IsPrefix.eq_of_length ?_ level.symm
          exact List.prefix_of_prefix_length_le shorter (parts ▸ List.prefix_append _ _) level.ge
        · have longest := longer.length_le
          rw [parts,List.length_append,List.length_cons] at longest
          omega
      subst same
      have further : chain ++ [found] <+: source := parts' ▸ List.prefix_append _ _
      refine Spec.through _ (Spec.weaken _ (acceptBlock_logged orders earlier valid) fun _ h => h.1.2)
        fun accepted => Spec.ite (fun _ => ?_) fun no exec outcome => absurd outcome.2.1 no
      refine Spec.consequence (ih parts' (by simp) (Nat.le_refl _) (.inl further) (earlier ++ [found]))
        (fun now outcome => outcome.2) fun _ now synced => ?_
      refine ⟨synced.reached,(List.prefix_append _ _).trans synced.kept,?_,?_⟩
      · right
        rcases synced.one with stopped | whole
        · have reached := synced.reached
          rw [stopped] at reached ⊢
          exact further.eq_of_length_le reached.length_le
        · exact whole
      · obtain ⟨more,chain_eq⟩ := synced.kept
        rw [synced.applied,← chain_eq,List.drop_left,List.append_assoc chain,List.drop_left,
          List.append_assoc]

theorem canonical_blocksPayload (blocks : List Block) :
    (blocksPayload (blocks.map Block.toJson)).canonical = true := by
  have elements : Json.canonicalElems (blocks.map Block.toJson) = true := by
    rw [Json.canonicalElems_iff]
    intro j member
    obtain ⟨block,-,rfl⟩ := List.mem_map.mp member
    exact block.canonical_toJson
  have key : Json.utf8Valid (str "blocks") = true := by decide
  simp [blocksPayload,Json.canonical,Json.canonicalFields,Json.keysSorted,elements,key]

theorem onBlocks_synced (orders : Nat → IterationOrder) {source : List Block}
    (grown : Grown ext consensus genesis source) {start : Nat} (asked : 0 < start)
    (inside : start ≤ source.length) (overlap : start ≤ chain.length)
    (comparable : chain <+: source ∨ source <+: chain) (earlier : List Block) :
    Spec Undisturbed (fun now => Stands consensus chain accounts now ∧ Logged earlier now)
      (onBlocks ext orders (blocksPayload ((source.drop start).map Block.toJson)))
      (fun deferred now => deferred = none ∧ Synced source chain earlier now) Never := by
  have front : (source.take start).length = start := by
    rw [List.length_take]
    omega
  refine Spec.through (fun blocksArray now =>
      blocksArray = .array ((source.drop start).map Block.toJson) ∧
      Stands consensus chain accounts now ∧ Logged earlier now)
    (Spec.lift (fun found ok now started => ⟨(Except.ok.inj ok).symm,started⟩) fun e error => by cases error)
    fun blocksArray exec started => ?_
  obtain rfl := started.2.1
  refine Spec.bind (Spec.weaken _ (syncBlocks_synced orders grown
    (List.take_append_drop start source).symm ?_ (by rw [front]; exact overlap) comparable earlier)
    fun _ h => h.2) (fun _ => Spec.pure fun now synced => ⟨rfl,synced⟩) exec started
  intro empty
  rw [empty] at front
  exact absurd front.symm asked.ne'

end sync

/-- R asks P for the blocks it lacks. P goes on until it replies and after that, and R accepts
blocks of P's chain from others before it handles the reply. -/
structure Exchange (ext : Externals) (configR configP : Config) where
  startR : List Action
  ask : Action
  meanwhile : List Action
  startP : List Action
  accepting : List Action
  later : List Action
  peerP : Nat
  peerR : Nat
  ordersP : Nat → IterationOrder
  fatesP : List Fate
  r0 : Node
  r1 : Node
  p0 : Node
  p1 : Node
  p2 : Node
  requesting : (Process.run ext configR startR).node? = some r0
  asked : (Process.run ext configR (startR ++ [ask])).sent = (Process.run ext configR startR).sent ++
    [⟨.peer peerP,⟨.getBlocks,fromPayload r0.blockchain.getHeight⟩⟩]
  awaiting : (Process.run ext configR (startR ++ [ask] ++ meanwhile)).node? = some r1
  before : (Process.run ext configP startP).node? = some p0
  replying : (Process.run ext configP (startP ++ accepting)).node? = some p1
  after : (Process.run ext configP (startP ++ accepting ++
    [.receive (messageBody ext ⟨.getBlocks,fromPayload r0.blockchain.getHeight⟩) peerR ordersP fatesP] ++
      later)).node? = some p2
  behind : r0.blockchain.chain <+: p0.blockchain.chain
  accepted : p0.blockchain.chain <+: p1.blockchain.chain
  continued : p1.blockchain.chain <+: p2.blockchain.chain
  kept : r0.blockchain.chain <+: r1.blockchain.chain
  followed : r1.blockchain.chain <+: p2.blockchain.chain

namespace Exchange
variable {ext : Externals} {configR configP : Config}

def request (exchange : Exchange ext configR configP) : Message :=
  ⟨.getBlocks,fromPayload exchange.r0.blockchain.getHeight⟩

def reply (exchange : Exchange ext configR configP) : Message :=
  ⟨.blocks,blocksPayload ((exchange.p1.blockchain.chain.drop
    exchange.r0.blockchain.getHeight.toNat).map Block.toJson)⟩

/-- P answers the request with that, and with nothing else. -/
theorem replies (parses : ext.ParseUndoesDump) (exchange : Exchange ext configR configP) :
    (Process.run ext configP (exchange.startP ++ exchange.accepting ++
      [.receive (messageBody ext exchange.request) exchange.peerR exchange.ordersP exchange.fatesP])).sent =
    (Process.run ext configP (exchange.startP ++ exchange.accepting)).sent ++
      [⟨.peer exchange.peerR,exchange.reply⟩] := by
  obtain ⟨now,up,node,-⟩ := (run_sound ext configP (exchange.startP ++ exchange.accepting)).node
    exchange.replying
  rw [Process.run_concat,up,request,Process.step_getBlocks configP parses,node]
  rfl

/-- P sends the reply, and it brings R to P's chain as of the reply, unless R is there or beyond
already; each missing block is applied once, and the accounts are those of any such node of P. -/
theorem catches_up (parses : ext.ParseUndoesDump)
    (authorities : configR.authorities = configP.authorities)
    (allocations : configR.genesisAllocations = configP.genesisAllocations)
    (exchange : Exchange ext configR configP)
    (fits : (messageBody ext exchange.reply).length ≤ maxBodyLen) (orders : Nat → IterationOrder)
    {fates : List Fate} (calm : ∀ fate ∈ fates, Undisturbed fate) :
    let waiting := Process.run ext configR (exchange.startR ++ [exchange.ask] ++ exchange.meanwhile)
    let done := Process.run ext configR (exchange.startR ++ [exchange.ask] ++ exchange.meanwhile ++
      [.receive (messageBody ext exchange.reply) exchange.peerP orders fates])
    (Process.run ext configP (exchange.startP ++ exchange.accepting ++
        [.receive (messageBody ext exchange.request) exchange.peerR exchange.ordersP exchange.fatesP])).sent =
      (Process.run ext configP (exchange.startP ++ exchange.accepting)).sent ++ [⟨.peer exchange.peerR,exchange.reply⟩] ∧
    ∃ r2, done.node? = some r2 ∧
      exchange.p1.blockchain.chain <+: r2.blockchain.chain ∧
      exchange.r1.blockchain.chain <+: r2.blockchain.chain ∧
      (r2.blockchain.chain = exchange.r1.blockchain.chain ∨
        r2.blockchain.chain = exchange.p1.blockchain.chain) ∧
      appliedBlocks done.log = appliedBlocks waiting.log ++
        r2.blockchain.chain.drop exchange.r1.blockchain.chain.length ∧
      r2.blockchain.chain.Nodup ∧
      ∀ actions p, (Process.run ext configP actions).node? = some p →
        p.blockchain.chain = r2.blockchain.chain → r2.state.accounts = p.state.accounts := by
  intro waiting done
  obtain ⟨now,up,node,-⟩ := (run_sound ext configR _).node exchange.awaiting
  have soundR : Sound ext configR exchange.r1 := .of_run exchange.awaiting
  have soundP : Sound ext configP exchange.p1 := .of_run exchange.replying
  obtain ⟨genesis,created,grown⟩ := soundP.configured.grown
  have height := exchange.r0.blockchain.getHeight_toNat
  have asked : 0 < exchange.r0.blockchain.getHeight.toNat := by
    rw [height]
    exact List.length_pos_iff.mpr exchange.r0.blockchain.nonempty
  have inside : exchange.r0.blockchain.getHeight.toNat ≤ exchange.p1.blockchain.chain.length := by
    rw [height]
    exact (exchange.behind.trans exchange.accepted).length_le
  have overlap : exchange.r0.blockchain.getHeight.toNat ≤ exchange.r1.blockchain.chain.length := by
    rw [height]
    exact exchange.kept.length_le
  have comparable := List.prefix_or_prefix_of_prefix exchange.followed exchange.continued
  have stands : Stands (some exchange.p1.consensus) exchange.r1.blockchain.chain
      exchange.r1.state.accounts now := by
    refine ⟨?_,by rw [node],by rw [node]⟩
    rw [node,soundP.same_schedule soundR authorities]
  have logged : Logged (appliedBlocks waiting.log) now := by
    rw [Logged,show waiting = _ from up]
    rfl
  obtain ⟨_,after,ran,rfl,synced⟩ := (onBlocks_synced orders grown asked inside overlap comparable
    (appliedBlocks waiting.log)).returns now ⟨stands,logged⟩ calm
  have finished : done = .up after.now := by
    have unfolded : done = waiting.step ext configR
      (.receive (messageBody ext exchange.reply) exchange.peerP orders fates) := Process.run_concat ..
    rw [unfolded,show waiting = _ from up,Process.step_receive ext configR parses _ exchange.reply
      (canonical_blocksPayload _) rfl fits]
    change Process.finish (onBlocks ext orders (blocksPayload ((exchange.p1.blockchain.chain.drop
      exchange.r0.blockchain.getHeight.toNat).map Block.toJson)) ⟨now,fates⟩) = _
    rw [ran,Process.finish_silent]
  have reached : done.node? = some after.now.node := by rw [finished]; rfl
  have sound : Sound ext configR after.now.node := .of_run reached
  obtain ⟨genesis',created',grown'⟩ := sound.configured.grown
  refine ⟨exchange.replies parses,after.now.node,reached,synced.reached,synced.kept,synced.one,?_,
    grown'.nodup (createGenesisBlock_index created'),fun actions p reached' same => ?_⟩
  · rw [finished]
    exact synced.applied
  · have soundP' : Sound ext configP p := .of_run reached'
    rw [sound.ledger,soundP'.ledger,allocations,same]

end Exchange
open Reference in
/-- The validator produces a block between the request and its reply. -/
theorem Exchange.catches_up_first :
    ∃ exchange : Exchange libraries (config observerKeys funded false) (config validatorKeys funded false),
      (messageBody libraries exchange.reply).length ≤ maxBodyLen ∧ exchange.r1.blockchain.chain = [genesis] ∧
      ∃ r2, (Process.run libraries (config observerKeys funded false)
          (exchange.startR ++ [exchange.ask] ++ exchange.meanwhile ++
            [.receive (messageBody libraries exchange.reply) exchange.peerP arrival []])).node? = some r2 ∧
        exchange.p1.blockchain.chain <+: r2.blockchain.chain ∧ exchange.p1.blockchain.chain = [genesis,first] := by
  let configR := config observerKeys funded false
  let configP := config validatorKeys funded false
  have runR : (Process.run libraries configR [.boot []]).node?.any
      (fun node => node.blockchain.chain = [genesis]) = true := by decide +kernel
  have runP : (Process.run libraries configP [.boot []]).node?.any
      (fun node => node.blockchain.chain = [genesis]) = true := by decide +kernel
  have producedP : (Process.run libraries configP ([.boot []] ++ [.produceBlock 1 arrival []])).node?.any
      (fun node => node.blockchain.chain = [genesis,first]) = true := by decide +kernel
  obtain ⟨nowR,upR,atR⟩ := Process.up_of_node runR
  obtain ⟨nowP,upP,atP⟩ := Process.up_of_node runP
  obtain ⟨nowP',upP',atP'⟩ := Process.up_of_node producedP
  have chainR := of_decide_eq_true atR
  have chainP := of_decide_eq_true atP
  have chainP' := of_decide_eq_true atP'
  have connected : Process.run libraries configR ([.boot []] ++ [.peerConnected 0]) =
      .up (nowR.send (.peer 0) ⟨.getBlocks,fromPayload nowR.node.blockchain.getHeight⟩) := by
    rw [Process.run_concat,upR]
    exact Process.finish_silent _ _
  let exchange : Exchange libraries configR configP := {
    startR := [.boot []]
    ask := .peerConnected 0
    meanwhile := []
    startP := [.boot []]
    accepting := [.produceBlock 1 arrival []]
    later := []
    peerP := 0
    peerR := 0
    ordersP := arrival
    fatesP := []
    r0 := nowR.node
    r1 := nowR.node
    p0 := nowP.node
    p1 := nowP'.node
    p2 := nowP'.node
    requesting := by rw [upR]; rfl
    asked := by rw [connected,upR]; rfl
    awaiting := by rw [List.append_nil,connected]; rfl
    before := by rw [upP]; rfl
    replying := by rw [upP']; rfl
    after := by rw [List.append_nil,Process.run_concat,upP',Process.step_getBlocks configP libraries_parse]; rfl
    behind := by rw [chainR,chainP]
    accepted := by rw [chainP,chainP']; exact ⟨[first],rfl⟩
    continued := List.prefix_rfl
    kept := List.prefix_rfl
    followed := by rw [chainR,chainP']; exact ⟨[first],rfl⟩ }
  have height : nowR.node.blockchain.getHeight = 1 := by
    rw [Blockchain.getHeight,chainR]
    rfl
  have fits : (messageBody libraries exchange.reply).length ≤ maxBodyLen := by
    change (messageBody libraries ⟨.blocks,blocksPayload ((nowP'.node.blockchain.chain.drop
      nowR.node.blockchain.getHeight.toNat).map Block.toJson)⟩).length ≤ maxBodyLen
    rw [chainP',height]
    decide +kernel
  have authorities : configR.authorities = configP.authorities := rfl
  obtain ⟨-,r2,reached,whole,-⟩ := Exchange.catches_up libraries_parse authorities rfl exchange fits arrival
    (List.forall_mem_nil _)
  exact ⟨exchange,fits,chainR,r2,reached,whole,chainP'⟩

end TitanCore
