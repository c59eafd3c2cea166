import TitanCore.FairRun

/-! Two nodes that are up: what holds of both at any time, and their steps. One produces and announces,
the other takes the block. -/
namespace TitanCore

section pair
variable {ext : Externals} {config : Bool → Config} {base : List Transaction} {now : Bool → Snapshot}
  {mover : Bool} {block : Block} {orders : Nat → IterationOrder}

def blockAnnouncement (block : Block) : Send := ⟨.others none,.newBlock,block.toJson⟩

/-- Two nodes on one chain with nothing to announce. -/
structure Level (now : Bool → Snapshot) : Prop where
  chains : (now true).node.blockchain.chain = (now false).node.blockchain.chain
  silent : ∀ i, (now i).outbox = []

structure Leads (config : Bool → Config) (mover : Bool) (block : Block) (now : Bool → Snapshot) : Prop where
  chain : (now mover).node.blockchain.chain = (now !mover).node.blockchain.chain ++ [block]
  key : block.validatorPublicKey = (config mover).nodeKeys.publicKey
  silent : (now !mover).outbox = []

/-- Both have the block, and the other may be about to pass it on. -/
structure Passed (mover : Bool) (now : Bool → Snapshot) : Prop where
  chain : (now mover).node.blockchain.chain = (now !mover).node.blockchain.chain
  silent : (now mover).outbox = []
  relay : (now !mover).outbox = [] ∨ ∃ message, (now !mover).outbox = [⟨.others (some 0),message⟩]

theorem Leads.latest (leads : Leads config mover block now) : (now mover).node.blockchain.getLatestBlock = block := by
  have last := (now mover).node.blockchain.getLatestBlock_eq
  rw [leads.chain,List.getLast?_concat,Option.some.injEq] at last
  exact last.symm

theorem Leads.longer (leads : Leads config mover block now) :
    (now mover).node.blockchain.chain.length ≠ (now !mover).node.blockchain.chain.length := by
  rw [leads.chain,List.length_append]
  exact Nat.succ_ne_self _

theorem Level.of_mover (mover : Bool) (chain : (now mover).node.blockchain.chain = (now !mover).node.blockchain.chain)
    (silent : (now mover).outbox = []) (silent' : (now !mover).outbox = []) : Level now := by
  cases mover
  · exact ⟨chain.symm,fun i => by cases i <;> assumption⟩
  · exact ⟨chain,fun i => by cases i <;> assumption⟩

theorem Level.chain (level : Level now) (mover : Bool) :
    (now mover).node.blockchain.chain = (now !mover).node.blockchain.chain := by
  cases mover
  · exact level.chains.symm
  · exact level.chains

/-- What holds at any time: all that is pending or was paid for is among these transactions. -/
structure Paired (ext : Externals) (config : Bool → Config) (base : List Transaction) (now : Bool → Snapshot) : Prop where
  reachable : Reachable ext config fun i => .up (now i)
  framed : ∀ i, Framed ext (config i) (now i)
  pools : ∀ i, (now i).node.mempool.transactions ⊆ base
  drawn : ∀ i, ∀ block ∈ (now i).node.blockchain.chain, block.transactions ⊆ base

/-- One more step, in which the node hands out these messages. -/
structure Stepped (ext : Externals) (config : Bool → Config) (base : List Transaction) (now : Bool → Snapshot) (i : Bool)
    (action : Action) (sends : List Send) (later : Snapshot) : Prop where
  acts : (Process.up (now i)).step ext (config i) action = .up later
  possible : Possible ext config (fun i => .up (now i)) i action
  said : later.sent = (now i).sent ++ sends
  kept : Paired ext config base (Function.update now i later)

theorem Paired.step (kept : Paired ext config base now) {i : Bool} {action : Action} {later : Snapshot} {sends : List Send}
    (acts : (Process.up (now i)).step ext (config i) action = .up later)
    (possible : Possible ext config (fun i => .up (now i)) i action)
    (answers : ∀ msg, action.Brings ext msg → ∀ message, msg.Answer ext (now i).node message → Fits ext message)
    (boots : action.boots = false) (hears : ∀ msg, action.Hears ext msg → msg.type ≠ .newTx)
    (said : later.sent = (now i).sent ++ sends)
    (drawn : ∀ block ∈ later.node.blockchain.chain, block.transactions ⊆ base) :
    Stepped ext config base now i action sends later := by
  refine ⟨acts,possible,said,?_,fun j => ?_,fun j => ?_,fun j => ?_⟩
  · have stepped := Reachable.step kept.reachable i action possible
    rw [acts] at stepped
    have same : Function.update (fun i => Process.up (now i)) i (.up later) =
        fun j => .up (Function.update now i later j) := by
      funext j
      by_cases acting : j = i
      · subst acting
        rw [Function.update_self,Function.update_self]
      · rw [Function.update_of_ne acting,Function.update_of_ne acting]
    rwa [same] at stepped
  all_goals by_cases acting : j = i
  case pos =>
    subst acting
    rw [Function.update_self]
    have holds := (Framed.lasting ext (config j)).step_holds action (fun _ _ => trivial) (fun _ _ _ _ => trivial)
      (fun msg brings before same => by
        obtain rfl := Process.up.inj same
        exact answers msg brings) (show Process.Holds _ _ (.up (now j)) from kept.framed j)
    rw [acts] at holds
    exact holds
  case neg =>
    rw [Function.update_of_ne acting]
    exact kept.framed j
  case pos =>
    subst acting
    rw [Function.update_self]
    exact List.Subset.trans (Process.step_pool acts boots hears) (kept.pools j)
  case neg =>
    rw [Function.update_of_ne acting]
    exact kept.pools j
  case pos =>
    subst acting
    rw [Function.update_self]
    exact drawn
  case neg =>
    rw [Function.update_of_ne acting]
    exact kept.drawn j

/-- What a node does by itself. -/
theorem Paired.step_local (kept : Paired ext config base now) {i : Bool} {action : Action} {later : Snapshot}
    {sends : List Send} (acts : (Process.up (now i)).step ext (config i) action = .up later)
    (calm : action.fates = []) (brings_none : ∀ msg, ¬ action.Brings ext msg)
    (boots : action.boots = false) (hears : ∀ msg, action.Hears ext msg → msg.type ≠ .newTx)
    (said : later.sent = (now i).sent ++ sends)
    (drawn : ∀ block ∈ later.node.blockchain.chain, block.transactions ⊆ base) :
    Stepped ext config base now i action sends later :=
  kept.step acts ⟨by rw [calm]; exact List.forall_mem_nil _,fun msg brings => (brings_none msg brings).elim,
    fun msg brings => (brings_none msg brings).elim⟩ (fun msg brings => (brings_none msg brings).elim) boots hears said drawn

/-- A message arrives over the one session of the two. -/
def hear (ext : Externals) (orders : Nat → IterationOrder) (msg : Message) : Action :=
  .receive (messageBody ext msg) 0 orders []

theorem hear_brings (parses : ext.ParseUndoesDump) {msg heard : Message} (canonical : msg.payload.canonical = true)
    (payload : msg.payload.isNull = false) (brings : (hear ext orders msg).Brings ext heard) : heard = msg := by
  have decoded := brings.2
  rw [deserializeMessage_body ext parses msg canonical,payload,Except.ok.injEq] at decoded
  exact decoded.symm

/-- A message without blocks. -/
theorem Paired.step_hear (kept : Paired ext config base now) (parses : ext.ParseUndoesDump) {i : Bool} {msg : Message}
    {later : Snapshot} {sends : List Send}
    (acts : (Process.up (now i)).step ext (config i) (hear ext orders msg) = .up later)
    (canonical : msg.payload.canonical = true) (payload : msg.payload.isNull = false) (type : msg.type ≠ .newTx)
    (empty : ∀ block, ¬ msg.Carries block) (answers : ∀ message, msg.Answer ext (now i).node message → Fits ext message)
    (said : later.sent = (now i).sent ++ sends)
    (drawn : ∀ block ∈ later.node.blockchain.chain, block.transactions ⊆ base) :
    Stepped ext config base now i (hear ext orders msg) sends later := by
  have only {heard : Message} (brings : (hear ext orders msg).Brings ext heard) : heard = msg :=
    hear_brings parses canonical payload brings
  refine kept.step acts ⟨List.forall_mem_nil _,fun heard brings block carries => ?_,
    fun heard brings block carries => ?_⟩ (fun heard brings => only brings ▸ answers) rfl
    (fun heard hears => only hears ▸ type) said drawn
  · rw [only brings] at carries
    exact absurd carries (empty block)
  · rw [only brings] at carries
    exact absurd carries (empty block)

theorem update_other (mover : Bool) (later : Snapshot) : Function.update now mover later (!mover) = now (!mover) :=
  Function.update_of_ne (Bool.not_ne_self mover) _ _

theorem update_mover (mover : Bool) (later : Snapshot) : Function.update now (!mover) later mover = now mover :=
  Function.update_of_ne (Bool.not_ne_self mover).symm _ _

theorem Paired.schedule (kept : Paired ext config base now) (federation : Federation ext config) (i j : Bool) :
    (now i).node.consensus = (now j).node.consensus := by
  apply PoAConsensus.authorities_injective
  rw [(kept.framed i).1.configured.authorities,(kept.framed j).1.configured.authorities,federation.authorities i j]

theorem Snapshot.broadcast_first (now : Snapshot) :
    now.broadcast 0 = { now with outbox := now.outbox.tail, sent := now.sent ++ now.outbox.take 1 } := by
  obtain ⟨node,outbox,sent,log⟩ := now
  cases outbox with
  | nil => simp [Snapshot.broadcast]
  | cons send rest => rfl

theorem Paired.step_broadcast (kept : Paired ext config base now) (i : Bool) :
    Stepped ext config base now i (.broadcast 0) ((now i).outbox.take 1) ((now i).broadcast 0) := by
  refine kept.step_local rfl rfl (fun _ => id) rfl (fun _ hears => hears.elim) ?_ ?_
  · rw [Snapshot.broadcast_first]
  · rw [Snapshot.broadcast_first]
    exact kept.drawn i

theorem Level.produces (level : Level now) (kept : Paired ext config base now)
    (keys : ∀ i, (config i).nodeKeys.WellFormed ext) (orders : Nat → IterationOrder) (mover : Bool) :
    ∃ later, Stepped ext config base now mover (.produceBlock 1 orders []) [] later ∧
      (Level (Function.update now mover later) ∨ ∃ block, Leads config mover block (Function.update now mover later) ∧
        later.outbox = [blockAnnouncement block]) := by
  obtain ⟨later,acts,outcome⟩ := Process.step_produces (kept.framed mover).1 (keys mover) orders 1
  have no_tx : ∀ msg, (Action.produceBlock 1 orders []).Hears ext msg → msg.type ≠ .newTx := by
    rintro _ ⟨_,rfl⟩ same
    cases same
  rcases outcome with poised | ⟨block,key,drawn,poised⟩
  · refine ⟨later,kept.step_local acts rfl (fun _ => id) rfl no_tx ?_ ?_,.inl (.of_mover mover ?_ ?_ ?_)⟩
    · rw [poised.sent,List.append_nil]
    · rw [poised.chain]
      exact kept.drawn mover
    · rw [Function.update_self,update_other,poised.chain]
      exact level.chain mover
    · rw [Function.update_self,poised.outbox]
      exact level.silent mover
    · rw [update_other]
      exact level.silent _
  · refine ⟨later,kept.step_local acts rfl (fun _ => id) rfl no_tx ?_ ?_,.inr ⟨block,⟨?_,key,?_⟩,?_⟩⟩
    · rw [poised.sent,List.append_nil]
    · rw [poised.chain]
      intro other member
      rcases List.mem_append.mp member with old | new
      · exact kept.drawn mover other old
      · rw [List.mem_singleton.mp new]
        exact List.Subset.trans drawn (kept.pools mover)
    · rw [Function.update_self,update_other,poised.chain,level.chain mover]
    · rw [update_other]
      exact level.silent _
    · rw [poised.outbox,level.silent mover]
      rfl

theorem Leads.takes (leads : Leads config mover block now) (kept : Paired ext config base now)
    (parses : ext.ParseUndoesDump) (federation : Federation ext config) (distinct : Function.Injective (signer ext config))
    (silent : (now mover).outbox = []) (said : blockAnnouncement block ∈ (now mover).sent) (orders : Nat → IterationOrder) :
    ∃ later, Stepped ext config base now (!mover) (hear ext orders ⟨.newBlock,block.toJson⟩) [] later ∧
      Passed mover (Function.update now (!mover) later) := by
  have valid : Blockchain.Extends ext (now !mover).node.blockchain.consensus (now !mover).node.blockchain.chain block := by
    obtain ⟨genesis,-,grown⟩ := (kept.framed mover).1.configured.grown
    rw [(kept.framed !mover).1.configured.consensus,kept.schedule federation (!mover) mover]
    exact grown.extends_of_prefix (now !mover).node.blockchain.nonempty (leads.chain ▸ List.prefix_rfl)
  have fits : Fits ext ⟨.newBlock,block.toJson⟩ := (kept.framed mover).2.1 _ said
  obtain ⟨later,acts,poised⟩ := Process.step_takes (config !mover) parses valid fits 0 orders
  have only {heard : Message} (brings : (hear ext orders ⟨.newBlock,block.toJson⟩).Brings ext heard) :
      heard = ⟨.newBlock,block.toJson⟩ := hear_brings parses block.canonical_toJson rfl brings
  have carried {heard : Message} (brings : (hear ext orders ⟨.newBlock,block.toJson⟩).Brings ext heard) {other : Block}
      (carries : heard.Carries other) : other = block := by
    rw [only brings] at carries
    generalize payload : block.toJson = encoded at carries
    cases carries with
    | newBlock decoded =>
      rw [← payload,blockFromJson_toJson] at decoded
      exact (Except.ok.inj decoded).symm
  have owned {owner : Bool} (signs : deriveAddress ext block.validatorPublicKey = signer ext config owner) :
      mover = owner := distinct (by rw [← signs,leads.key]; rfl)
  refine ⟨later,kept.step acts ⟨List.forall_mem_nil _,fun heard brings other carries _ _ owner _ key => ?_,
    fun heard brings other carries owner signs => ?_⟩ (fun heard brings => ?_) rfl
    (fun heard hears => only hears ▸ fun same => by cases same) ?_ ?_,?_,?_,?_⟩
  · obtain rfl := carried brings carries
    obtain rfl := owned (by rw [key]; rfl)
    exact ⟨_,said,other,.newBlock (blockFromJson_toJson other),rfl⟩
  · obtain rfl := carried brings carries
    obtain rfl := owned signs
    exact leads.key
  · rw [only brings]
    rintro _ ⟨_,_,_,rfl⟩
    exact fits
  · rw [poised.sent,List.append_nil]
  · rw [poised.chain,← leads.chain]
    exact kept.drawn mover
  · rw [update_mover,Function.update_self,poised.chain,leads.chain]
  · rw [update_mover]
    exact silent
  · rw [Function.update_self,poised.outbox,leads.silent]
    exact .inr ⟨_,rfl⟩

/-- Where blocks of different heights have different digests, nothing collides. -/
theorem Paired.free (kept : Paired ext config base now) (parses : ext.ParseUndoesDump) (federation : Federation ext config)
    (separates : ∀ a b, ext.sha256 (headerPreimage ext a) = ext.sha256 (headerPreimage ext b) → a.index = b.index)
    {longest : Bool} (comparable : ∀ i, (now i).node.blockchain.chain <+: (now longest).node.blockchain.chain) :
    CollisionFree ext fun i => .up (now i) := by
  have safe := kept.reachable.safe parses federation
  have held {block : Block} (occurs : Occurs (fun i => .up (now i)) block) :
      (now longest).node.blockchain.chain[block.index.toNat]? = some block := by
    have member : block ∈ (now longest).node.blockchain.chain := by
      cases occurs with
      | @held i node memory member =>
        obtain rfl := Option.some.inj memory
        exact (comparable i).subset member
      | @sent i send said carries =>
        obtain ⟨durable,backed⟩ := safe.backed i
        exact (comparable i).subset ((backed.held _ rfl).subset (backed.sent send said block carries))
    obtain ⟨genesis,created,grown⟩ := (kept.framed longest).1.configured.grown
    obtain ⟨k,at_k⟩ := List.mem_iff_getElem?.mp member
    rwa [grown.index_at created at_k]
  intro a b occursA occursB same
  have at_b := held occursB
  rw [← separates a b same,held occursA,Option.some.injEq] at at_b
  rw [at_b]

/-- Neither chain changes when a node only says something. -/
theorem Level.tells (level : Level now) (i : Bool) (recipient : Recipient) (message : Message) :
    Level (Function.update now i ((now i).send recipient message)) := by
  cases i
  · exact ⟨level.chains,fun j => by cases j <;> exact level.silent _⟩
  · exact ⟨level.chains,fun j => by cases j <;> exact level.silent _⟩

theorem tells_node (i : Bool) (recipient : Recipient) (message : Message) (j : Bool) :
    (Function.update now i ((now i).send recipient message) j).node = (now j).node := by
  by_cases same : j = i
  · subst same
    rw [Function.update_self]
    rfl
  · rw [Function.update_of_ne same]

theorem Paired.greets (kept : Paired ext config base now) (i : Bool) :
    Stepped ext config base now i (.peerConnected 0)
      [⟨.peer 0,.getBlocks,fromPayload (now i).node.blockchain.getHeight⟩]
      ((now i).send (.peer 0) ⟨.getBlocks,fromPayload (now i).node.blockchain.getHeight⟩) :=
  kept.step_local (Process.step_peerConnected 0 (now i)) rfl (fun _ => id) rfl (fun _ hears => hears.elim) rfl
    (kept.drawn i)

theorem Level.answers (level : Level now) (kept : Paired ext config base now) (parses : ext.ParseUndoesDump)
    (orders : Nat → IterationOrder) (i : Bool) : Stepped ext config base now i
      (hear ext orders ⟨.getBlocks,fromPayload (now !i).node.blockchain.getHeight⟩) [⟨.peer 0,.blocks,blocksPayload []⟩]
      ((now i).send (.peer 0) ⟨.blocks,blocksPayload []⟩) := by
  have none_left : (now i).node.blockchain.chain.drop (now !i).node.blockchain.getHeight.toNat = [] := by
    rw [Blockchain.getHeight_toNat,level.chain i]
    exact List.drop_length
  have acts := Process.step_getBlocks (config i) parses (now i) (now !i).node.blockchain.getHeight 0 orders []
  rw [none_left] at acts
  refine kept.step_hear parses acts rfl rfl (fun same => by cases same) (fun _ carries => by cases carries) ?_ rfl
    (kept.drawn i)
  rintro _ ⟨fromIndex,asked,rfl⟩
  obtain rfl : (now !i).node.blockchain.getHeight = fromIndex := Except.ok.inj asked
  rw [none_left]
  exact empty_fits ext

theorem Paired.ignores (kept : Paired ext config base now) (parses : ext.ParseUndoesDump)
    (orders : Nat → IterationOrder) (i : Bool) :
    Stepped ext config base now i (hear ext orders ⟨.blocks,blocksPayload []⟩) [] (now i) := by
  refine kept.step_hear parses (Process.step_nothing parses (now i) 0 orders) rfl rfl (fun same => by cases same)
    (fun block carries => ?_) (fun _ answer => answer.elim) (List.append_nil _).symm (kept.drawn i)
  generalize payload : blocksPayload [] = encoded at carries
  cases carries with
  | blocks array member =>
    subst payload
    obtain rfl := Except.ok.inj array
    cases member

end pair
end TitanCore
