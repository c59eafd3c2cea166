import TitanCore.NodeRules

/-! What the handlers of messages and the recovery come across and say. An invariant is proved of the
few steps they are made of, and these rules carry it through every handler. -/
namespace TitanCore

/-- What a node ever hands to its peers, replies and broadcasts alike. -/
inductive Sendable (ext : Externals) (node : Node) : Message → Prop
  | pong : Sendable ext node ⟨.pong,.null⟩
  | getBlocks : Sendable ext node ⟨.getBlocks,fromPayload node.blockchain.getHeight⟩
  | blocks (start : Nat) : Sendable ext node
      ⟨.blocks,blocksPayload ((node.blockchain.chain.drop start).map Block.toJson)⟩
  | transaction {tx : Transaction} {payload : Json} (verified : verifyTransaction ext tx = true)
      (decoded : transactionFromJson payload = .ok tx) : Sendable ext node ⟨.newTx,payload⟩
  | block {block : Block} {payload : Json} (held : block ∈ node.blockchain.chain)
      (decoded : blockFromJson payload = .ok block) : Sendable ext node ⟨.newBlock,payload⟩

/-- The blocks a message brings to the node that handles it. -/
inductive Message.Carries : Message → Block → Prop
  | newBlock {payload : Json} {block : Block} (decoded : blockFromJson payload = .ok block) :
      Carries ⟨.newBlock,payload⟩ block
  | blocks {payload blocksArray blockJson : Json} {block : Block}
      (array : payload.at? (str "blocks") = .ok blocksArray)
      (member : blockJson ∈ blocksArray.elements)
      (decoded : blockFromJson blockJson = .ok block) : Carries ⟨.blocks,payload⟩ block

theorem Sendable.carried {ext : Externals} {node : Node} {message : Message} {block : Block}
    (sendable : Sendable ext node message) (carries : message.Carries block) :
    block ∈ node.blockchain.chain := by
  cases carries with
  | newBlock decoded =>
    cases sendable with
    | block held same =>
      rw [same] at decoded
      obtain rfl := Except.ok.inj decoded
      exact held
  | blocks array member decoded =>
    cases sendable with
    | blocks start =>
      cases array
      obtain ⟨held,inside,rfl⟩ := List.mem_map.mp member
      rw [blockFromJson_toJson] at decoded
      obtain rfl := Except.ok.inj decoded
      exact List.mem_of_mem_drop inside

/-- What a message can make a node say that depends on the message: it is passed on when its
block or transaction is accepted, or the blocks it asks for are sent. An interrupted section does
not get to say it. -/
def Message.Answer (ext : Externals) (msg : Message) (node : Node) (message : Message) : Prop :=
  match msg.type with
  | .newBlock => ∃ block, blockFromJson msg.payload = .ok block ∧
    (node.blockchain.addBlock ext block).1 = true ∧ message = msg
  | .newTx => ∃ tx, transactionFromJson msg.payload = .ok tx ∧
    (node.mempool.addTransaction ext node.state tx).1 = true ∧ message = msg
  | .getBlocks => ∃ fromIndex : UInt64,
    (do (← msg.payload.at? (str "from")).getUInt64) = Except.ok fromIndex ∧
    message = ⟨.blocks,blocksPayload ((node.blockchain.chain.drop fromIndex.toNat).map Block.toJson)⟩
  | _ => False

/-- What a node says of its own accord, blocks apart. -/
inductive Ordinary (ext : Externals) : Message → Prop
  | pong : Ordinary ext ⟨.pong,.null⟩
  | getBlocks (height : UInt64) : Ordinary ext ⟨.getBlocks,fromPayload height⟩
  | transaction {tx : Transaction} (verified : verifyTransaction ext tx = true) :
      Ordinary ext ⟨.newTx,tx.toJson⟩

/-- An invariant between sections, with what an interruption leaves: what each step of a
section must preserve. `offered` holds of the blocks the node comes across, `said` of the
messages it sends. -/
structure Stable (ext : Externals) (allowed : Fate → Prop) (offered : Block → Prop)
    (said : Message → Prop) (rest : Snapshot → Prop) (halt : Interrupt → Snapshot → Prop) : Prop where
  interrupt : ∀ e now, rest now → halt (.exception e) now
  admission : ∀ tx now, rest now → rest (now.onNode (Node.addTransaction ext tx))
  blame : ∀ text now, rest now → rest (now.onNode fun node => { node with lastError := text })
  reply : ∀ recipient message now, rest now → Sendable ext now.node message → said message →
    rest (now.send recipient message)
  ordinary : ∀ message, Ordinary ext message → said message
  produce : ∀ now order clock block, rest now → createBlock ext now.node.nodeKeys
    now.node.blockchain.getLatestBlock (now.node.mempool.getTransactionsForBlock order 100) clock =
      .ok block → offered block ∧ said ⟨.newBlock,block.toJson⟩
  accept : ∀ orders block, offered block → ∃ appended applied cleaned stored counted,
    Acceptance ext allowed orders block halt rest appended applied cleaned stored counted rest

theorem collectBlocks_eq (blockchain : Blockchain) (i count : Nat)
    (whole : i + count = blockchain.chain.length) :
    collectBlocks blockchain i count = .ok ((blockchain.chain.drop i).map Block.toJson) := by
  induction count generalizing i with
  | zero => simp [collectBlocks,List.drop_eq_nil_of_le (by omega : blockchain.chain.length ≤ i)]
  | succ count ih =>
    have inside : i < blockchain.chain.length := by omega
    have small : (UInt64.ofNat i).toNat = i := by
      rw [UInt64.toNat_ofNat']
      exact Nat.mod_eq_of_lt (lt_trans inside blockchain.bounded)
    have found : blockchain.getBlock (UInt64.ofNat i) = .ok blockchain.chain[i] := by
      simp [Blockchain.getBlock,small,inside]
    simp only [collectBlocks,found,ok_bind,ih (i + 1) (by omega)]
    rw [List.drop_eq_getElem_cons inside]
    rfl

namespace Stable
variable {ext : Externals} {allowed : Fate → Prop} {offered : Block → Prop}
  {said : Message → Prop} {rest : Snapshot → Prop} {halt : Interrupt → Snapshot → Prop}

def Returns (ext : Externals) (said : Message → Prop) (rest : Snapshot → Prop)
    (deferred : Option Send) (now : Snapshot) : Prop :=
  rest now ∧ ∀ send ∈ deferred, Sendable ext now.node send.message ∧ said send.message

theorem returns_none {now : Snapshot} (holds : rest now) : Returns ext said rest none now :=
  ⟨holds,by simp⟩

theorem acceptBlock_spec (stable : Stable ext allowed offered said rest halt)
    (orders : Nat → IterationOrder) {block : Block} (offer : offered block) :
    Spec allowed rest (acceptBlock ext orders block)
      (fun accepted now => rest now ∧ (accepted = true → block ∈ now.node.blockchain.chain)) halt := by
  obtain ⟨_,_,_,_,_,proof⟩ := stable.accept orders block offer
  refine Spec.consequence proof.withBlock.acceptBlock_spec (fun _ h => h) fun accepted now outcome => ?_
  cases accepted with
  | true => exact ⟨outcome.1,fun _ => outcome.2⟩
  | false => exact ⟨outcome,fun impossible => by cases impossible⟩

theorem acceptBlock_refused (stable : Stable ext allowed offered said rest halt)
    (orders : Nat → IterationOrder) {block : Block} (offer : offered block) {node : Node}
    (refused : (node.blockchain.addBlock ext block).1 = false) :
    Spec allowed (fun now => rest now ∧ now.node = node) (acceptBlock ext orders block)
      (fun accepted now => accepted = false ∧ rest now) halt := by
  obtain ⟨_,_,_,_,_,proof⟩ := stable.accept orders block offer
  refine Spec.through (fun accepted now => accepted = false ∧ rest now)
    (Spec.consequence (addBlock_spec (fun now => rest now) (fun _ => False)
      (fun possible now start => proof.crash possible now (.inl start.1))
      (fun now start no => proof.refuse now start.1 no) fun now start yes => ?_) (fun _ h => h)
      fun accepted now outcome => ?_) fun accepted => Spec.ite (fun yes exec start => ?_)
        fun _ => Spec.pure fun now start => ⟨rfl,start.2⟩
  · rw [start.2,refused] at yes
    cases yes
  · cases accepted with
    | true => exact outcome.elim
    | false => exact ⟨rfl,outcome⟩
  · rw [start.2.1] at yes
    cases yes

theorem admitTransaction_spec (stable : Stable ext allowed offered said rest halt)
    (tx : Transaction) (node : Node) :
    Spec allowed (fun now => rest now ∧ now.node = node) (admitTransaction ext tx)
      (fun accepted now => rest now ∧
        accepted = (node.mempool.addTransaction ext node.state tx).1) halt := by
  refine Spec.getNode_bind fun held => Spec.through (fun _ now => rest now ∧ held = node)
    (Spec.update fun now start => ⟨stable.admission tx now start.1.1,start.2.symm.trans start.1.2⟩)
    fun _ => Spec.pure fun now holds => ⟨holds.1,by rw [holds.2]⟩

theorem submitTransaction_spec (stable : Stable ext allowed offered said rest halt) (tx : Transaction) :
    Spec allowed rest (submitTransaction ext tx) (Returns ext said rest) halt := by
  refine fun exec start => Spec.bind (stable.admitTransaction_spec tx exec.now.node)
    (fun accepted => Spec.ite (fun yes => ?_) fun _ => ?_) exec ⟨start.1,start.2,rfl⟩
  · refine Spec.pure fun now outcome => ⟨outcome.1,fun send member => ?_⟩
    obtain rfl := Option.some.inj member
    have verified := Mempool.addTransaction_verified (outcome.2.symm.trans yes)
    exact ⟨.transaction verified (transactionFromJson_toJson tx),
      stable.ordinary _ (.transaction verified)⟩
  · exact Spec.through (fun _ => rest) (Spec.update fun now start =>
      stable.blame now.node.mempool.lastError now start.1) fun _ => Spec.pure fun _ => returns_none

theorem accept_and_send (stable : Stable ext allowed offered said rest halt)
    (orders : Nat → IterationOrder) {block : Block} (offer : offered block) {payload : Json}
    (decoded : blockFromJson payload = .ok block) (speak : said ⟨.newBlock,payload⟩)
    (recipient : Recipient) {pre : Snapshot → Prop} (start : ∀ now, pre now → rest now) :
    Spec allowed pre (do
      let accepted ← acceptBlock ext orders block
      if accepted then return some ⟨recipient,.newBlock,payload⟩ else return none)
      (Returns ext said rest) halt := by
  refine Spec.bind (Spec.weaken _ (stable.acceptBlock_spec orders offer) start)
    fun accepted => Spec.ite (fun yes => ?_) fun _ => Spec.pure fun now outcome =>
      returns_none outcome.1
  refine Spec.pure fun now outcome => ⟨outcome.1,fun send member => ?_⟩
  obtain rfl := Option.some.inj member
  exact ⟨.block (outcome.2 yes) decoded,speak⟩

theorem produceBlock_spec (stable : Stable ext allowed offered said rest halt)
    (orders : Nat → IterationOrder) (clock : UInt64) :
    Spec allowed rest (produceBlock ext orders clock) (Returns ext said rest) halt := by
  refine Spec.getNode_bind fun node => Spec.ite (fun _ => Spec.pure fun _ start =>
    returns_none start.1) fun _ => ?_
  refine Spec.through (fun block now => rest now ∧ offered block ∧ said ⟨.newBlock,block.toJson⟩)
    (Spec.lift (fun block made now start => ⟨start.1,?_⟩)
      fun e _ now start => stable.interrupt e now start.1) fun block => ?_
  · obtain ⟨holds,rfl⟩ := start
    exact stable.produce now _ _ block holds made
  · intro exec start
    exact stable.accept_and_send orders start.2.2.1 (blockFromJson_toJson block) start.2.2.2 _
      (fun _ h => h.1) exec start

theorem onNewTx_spec (stable : Stable ext allowed offered said rest halt) (payload : Json)
    (node : Node) (answers : ∀ message, Message.Answer ext ⟨.newTx,payload⟩ node message →
      said message) (fromPeer : Nat) :
    Spec allowed (fun now => rest now ∧ now.node = node) (onNewTx ext payload fromPeer)
      (Returns ext said rest) halt := by
  refine Spec.through (fun tx now => (rest now ∧ now.node = node) ∧
      transactionFromJson payload = .ok tx)
    (Spec.lift (fun _ ok _ start => ⟨start,ok⟩) fun e _ now start =>
      stable.interrupt e now start.1)
    fun tx => Spec.getNode_bind fun held => Spec.ite (fun _ => Spec.pure fun _ start =>
      returns_none start.1.1.1) fun _ => ?_
  intro exec start
  have decoded := start.2.1.2
  refine Spec.bind (stable.admitTransaction_spec tx node) (fun accepted => Spec.ite (fun yes => ?_)
    fun _ => Spec.pure fun _ outcome => returns_none outcome.1) exec ⟨start.1,start.2.1.1⟩
  refine Spec.pure fun now outcome => ⟨outcome.1,fun send member => ?_⟩
  obtain rfl := Option.some.inj member
  have added := outcome.2.symm.trans yes
  exact ⟨.transaction (Mempool.addTransaction_verified added) decoded,
    answers _ ⟨tx,decoded,added,rfl⟩⟩

theorem onNewBlock_spec (stable : Stable ext allowed offered said rest halt)
    (orders : Nat → IterationOrder) (payload : Json)
    (heard : ∀ block, blockFromJson payload = .ok block → offered block) (node : Node)
    (answers : ∀ message, Message.Answer ext ⟨.newBlock,payload⟩ node message → said message)
    (fromPeer : Nat) :
    Spec allowed (fun now => rest now ∧ now.node = node)
      (onNewBlock ext orders payload fromPeer) (Returns ext said rest) halt := by
  refine Spec.through (fun block now => (rest now ∧ now.node = node) ∧
      blockFromJson payload = .ok block)
    (Spec.lift (fun _ ok _ start => ⟨start,ok⟩) fun e _ now start =>
      stable.interrupt e now start.1)
    fun block => Spec.getNode_bind fun held => Spec.ite (fun _ => ?_) fun _ =>
      Spec.ite (fun _ => Spec.pure fun _ start => returns_none start.1.1.1) fun _ => ?_
  · refine Spec.through (fun _ => rest) (Spec.update fun now start => ?_) fun _ =>
      Spec.pure fun _ => returns_none
    refine stable.reply _ _ now start.1.1.1 ?_ (stable.ordinary _ (.getBlocks _))
    rw [← start.2]
    exact .getBlocks
  · intro exec start
    have decoded := start.2.1.2
    cases result : (node.blockchain.addBlock ext block).1 with
    | true =>
      exact stable.accept_and_send orders (heard block decoded) decoded
        (answers _ ⟨block,decoded,result,rfl⟩) _ (fun _ h => h.1.1.1) exec start
    | false =>
      refine Spec.bind (stable.acceptBlock_refused orders (heard block decoded) result)
        (fun accepted => Spec.ite (fun yes exec start => ?_) fun _ => Spec.pure fun _ outcome =>
          returns_none outcome.2) exec ⟨start.1,start.2.1.1⟩
      rw [start.2.1] at yes
      cases yes

/-- One reply: the chain from the index asked for, which is nothing past its end. -/
theorem onGetBlocks_spec (stable : Stable ext allowed offered said rest halt) (payload : Json)
    (node : Node) (answers : ∀ message, Message.Answer ext ⟨.getBlocks,payload⟩ node message →
      said message) (fromPeer : Nat) :
    Spec allowed (fun now => rest now ∧ now.node = node) (onGetBlocks payload fromPeer)
      (Returns ext said rest) halt := by
  refine Spec.through (fun fromIndex now => (rest now ∧ now.node = node) ∧
      (do (← payload.at? (str "from")).getUInt64) = Except.ok fromIndex)
    (Spec.lift (fun _ ok _ start => ⟨start,ok⟩) fun e _ now start =>
      stable.interrupt e now start.1) fun fromIndex => Spec.getNode_bind fun held =>
    Spec.ite (fun past => ?_) fun inside => ?_
  · refine Spec.through (fun _ => rest) (Spec.update fun now start => ?_) fun _ =>
      Spec.pure fun _ => returns_none
    obtain ⟨⟨⟨holds,rfl⟩,asked⟩,rfl⟩ := start
    rw [UInt64.le_iff_toNat_le,Blockchain.getHeight_toNat] at past
    have none_left : (now.node.blockchain.chain.drop fromIndex.toNat).map Block.toJson = [] := by
      rw [List.drop_eq_nil_of_le past]
      rfl
    have said_so := answers _ ⟨fromIndex,asked,rfl⟩
    have sendable : Sendable ext now.node ⟨.blocks,blocksPayload
      ((now.node.blockchain.chain.drop fromIndex.toNat).map Block.toJson)⟩ := .blocks _
    rw [none_left] at said_so sendable
    exact stable.reply _ _ now holds sendable said_so
  · rw [UInt64.not_le,UInt64.lt_iff_toNat_lt,Blockchain.getHeight_toNat] at inside
    rw [Blockchain.getHeight_toNat,collectBlocks_eq _ _ _ (by omega)]
    refine Spec.through (fun collected now => (((rest now ∧ now.node = node) ∧
        (do (← payload.at? (str "from")).getUInt64) = Except.ok fromIndex) ∧ now.node = held) ∧
      collected = (held.blockchain.chain.drop fromIndex.toNat).map Block.toJson)
      (Spec.lift (fun _ ok _ start => ⟨start,(Except.ok.inj ok).symm⟩) fun _ error => by cases error)
      fun collected => Spec.through (fun _ => rest) (Spec.update fun now start => ?_) fun _ =>
        Spec.pure fun _ => returns_none
    obtain ⟨⟨⟨⟨holds,rfl⟩,asked⟩,rfl⟩,rfl⟩ := start
    exact stable.reply _ _ now holds (.blocks _) (answers _ ⟨fromIndex,asked,rfl⟩)

theorem syncBlocks_spec (stable : Stable ext allowed offered said rest halt)
    (orders : Nat → IterationOrder) (elements : List Json)
    (heard : ∀ blockJson ∈ elements, ∀ block, blockFromJson blockJson = .ok block → offered block) :
    Spec allowed rest (syncBlocks ext orders elements) (fun _ => rest) halt := by
  induction elements with
  | nil => exact Spec.pure fun _ h => h
  | cons blockJson later ih =>
    have others := ih fun other member => heard other (List.mem_cons_of_mem _ member)
    refine Spec.through (fun block now => rest now ∧ blockFromJson blockJson = .ok block)
      (Spec.lift (fun _ ok _ start => ⟨start,ok⟩) fun e _ now start => stable.interrupt e now start)
      fun block => Spec.getNode_bind fun node =>
      Spec.ite (fun _ => Spec.weaken _ others fun _ h => h.1.1) fun _ =>
      Spec.ite (fun _ => Spec.pure fun _ start => start.1.1) fun _ => ?_
    intro exec start
    have offer := heard blockJson (by simp) block start.2.1.2
    exact Spec.bind (stable.acceptBlock_spec orders offer) (fun accepted =>
      Spec.ite (fun _ => Spec.weaken _ others fun _ h => h.1) fun _ =>
        Spec.pure fun _ outcome => outcome.1) exec ⟨start.1,start.2.1.1⟩

theorem onBlocks_spec (stable : Stable ext allowed offered said rest halt)
    (orders : Nat → IterationOrder) (payload : Json)
    (heard : ∀ block, Message.Carries ⟨.blocks,payload⟩ block → offered block) :
    Spec allowed rest (onBlocks ext orders payload) (Returns ext said rest) halt := by
  refine Spec.through (fun blocksArray now => rest now ∧
      payload.at? (str "blocks") = .ok blocksArray)
    (Spec.lift (fun _ ok _ start => ⟨start,ok⟩) fun e _ now start => stable.interrupt e now start)
    fun blocksArray exec start => ?_
  have array := start.2.2
  exact Spec.bind (stable.syncBlocks_spec orders blocksArray.elements fun blockJson member block
    decoded => heard block (.blocks array member decoded)) (fun _ => Spec.pure fun _ =>
      returns_none) exec ⟨start.1,start.2.1⟩

theorem onPeerConnected_spec (stable : Stable ext allowed offered said rest halt) (peer : Nat) :
    Spec allowed rest (onPeerConnected peer) (Returns ext said rest) halt := by
  refine Spec.getNode_bind fun node => Spec.through (fun _ => rest)
    (Spec.update fun now start => ?_) fun _ => Spec.pure fun _ => returns_none
  refine stable.reply _ _ now start.1 ?_ (stable.ordinary _ (.getBlocks _))
  rw [← start.2]
  exact .getBlocks

/-- Every message of a peer, whatever it holds. -/
theorem handleMessage_spec (stable : Stable ext allowed offered said rest halt)
    (orders : Nat → IterationOrder) (msg : Message)
    (heard : ∀ block, msg.Carries block → offered block) (node : Node)
    (answers : ∀ message, msg.Answer ext node message → said message) (fromPeer : Nat) :
    Spec allowed (fun now => rest now ∧ now.node = node) (handleMessage ext orders msg fromPeer)
      (Returns ext said rest) halt := by
  obtain ⟨type,payload⟩ := msg
  cases type with
  | ping => exact Spec.through (fun _ => rest) (Spec.update fun now start =>
      stable.reply _ _ now start.1 .pong (stable.ordinary _ .pong)) fun _ =>
        Spec.pure fun _ => returns_none
  | pong => exact Spec.pure fun _ start => returns_none start.1
  | newBlock => exact stable.onNewBlock_spec orders payload (fun block decoded =>
      heard block (.newBlock decoded)) node answers fromPeer
  | newTx => exact stable.onNewTx_spec payload node answers fromPeer
  | getBlocks => exact stable.onGetBlocks_spec payload node answers fromPeer
  | blocks => exact Spec.weaken _ (stable.onBlocks_spec orders payload heard) fun _ h => h.1

end Stable

/-- The assertions of a replay from disk: `recovering i` before block `i` is loaded,
`appended i` between its two steps, `done` when the loop ends. -/
structure Recovery (ext : Externals) (allowed : Fate → Prop) (halt : Interrupt → Snapshot → Prop)
    (stop : Nat) (recovering appended : Nat → Snapshot → Prop) (done : Snapshot → Prop) : Prop where
  unreadable : ∀ i now storage e, i < stop → recovering i now → now.node.storage = some storage →
    storage.loadBlock ext (UInt64.ofNat i) = .error e → halt (.exception e) now
  missing : ∀ i now storage, i < stop → recovering i now → now.node.storage = some storage →
    storage.loadBlock ext (UInt64.ofNat i) = .ok none → done now
  refuse : ∀ i now storage block, i < stop → recovering i now → now.node.storage = some storage →
    storage.loadBlock ext (UInt64.ofNat i) = .ok (some block) →
    (now.node.blockchain.addBlock ext block).1 = false →
    done (now.onNode (Node.addBlock ext block))
  append : ∀ i now storage block, i < stop → recovering i now → now.node.storage = some storage →
    storage.loadBlock ext (UInt64.ofNat i) = .ok (some block) →
    (now.node.blockchain.addBlock ext block).1 = true →
    ∀ after, after = now.onNode (Node.addBlock ext block) → appended i after ∧
      recovering (i + 1) ((after.onNode (Node.applyBlock block)).record
        (.applied block after.node.state.accounts after.node.blockchain.chain
          (after.node.state.applyBlock block).2.accounts))
  finish : ∀ now, recovering stop now → done now
  memory : ∀ i now, recovering i now → now.node.storage = none → done now
  crash : allowed .crash → ∀ i now, recovering i now ∨ appended i now → halt .crash now

namespace Recovery
variable {ext : Externals} {allowed : Fate → Prop} {halt : Interrupt → Snapshot → Prop}
  {stop : Nat} {recovering appended : Nat → Snapshot → Prop} {done : Snapshot → Prop}

theorem recoverBlocks_spec (proof : Recovery ext allowed halt stop recovering appended done)
    (i remaining : Nat) (total : i + remaining = stop) :
    Spec allowed (recovering i) (recoverBlocks ext i remaining) (fun _ => done) halt := by
  induction remaining generalizing i with
  | zero =>
    rw [Nat.add_zero] at total
    subst total
    exact Spec.pure proof.finish
  | succ remaining ih =>
    have inside : i < stop := by omega
    refine Spec.getNode_bind fun node => ?_
    cases held : node.storage with
    | none => exact Spec.pure fun now start => proof.memory i now start.1 (by rw [start.2,held])
    | some storage =>
      refine Spec.through (fun found now => recovering i now ∧ now.node.storage = some storage ∧
        storage.loadBlock ext (UInt64.ofNat i) = .ok found) (Spec.lift
          (fun _ ok now start => ⟨start.1,by rw [start.2,held],ok⟩) fun e error now start =>
          proof.unreadable i now storage e inside start.1 (by rw [start.2,held]) error) fun found => ?_
      cases found with
      | none => exact Spec.pure fun now start =>
          proof.missing i now storage inside start.1 start.2.1 start.2.2
      | some block =>
        -- between the two steps the ledger still lacks the block
        refine Spec.bind (addBlock_spec done (fun now => appended i now ∧
            recovering (i + 1) ((now.onNode (Node.applyBlock block)).record
              (.applied block now.node.state.accounts now.node.blockchain.chain
                (now.node.state.applyBlock block).2.accounts)))
          (fun possible now start => proof.crash possible i now (.inl start.1))
          (fun now start refused => proof.refuse i now storage block inside start.1 start.2.1
            start.2.2 refused) fun now start accepted => proof.append i now storage block inside
              start.1 start.2.1 start.2.2 accepted _ rfl) fun accepted =>
          Spec.ite (fun yes => ?_) fun no => Spec.pure fun now start => by simpa [no] using start
        refine Spec.weaken (fun now => appended i now ∧
          recovering (i + 1) ((now.onNode (Node.applyBlock block)).record
            (.applied block now.node.state.accounts now.node.blockchain.chain
              (now.node.state.applyBlock block).2.accounts))) ?_
          fun now start => by simpa [yes] using start
        exact Spec.bind (applyBlock_spec (fun possible now start =>
          proof.crash possible i now (.inr start.1)) fun now start => start.2) fun _ =>
          ih (i + 1) (by omega)

end Recovery

/-- Recovery as a whole, from what it reads as the stored height. -/
theorem recoverFromStorage_spec {ext : Externals} {allowed : Fate → Prop} {start : Snapshot → Prop}
    {halt : Interrupt → Snapshot → Prop} {done : Snapshot → Prop}
    (memory : ∀ now, start now → now.node.storage = none → done now)
    (unreadable : ∀ now storage e, start now → now.node.storage = some storage →
      storage.loadChainHeight = .error e → halt (.exception e) now)
    (fresh : ∀ now storage height, start now → now.node.storage = some storage →
      storage.loadChainHeight = .ok height → height ≤ 1 → done now)
    (replay : ∀ now storage height, start now → now.node.storage = some storage →
      storage.loadChainHeight = .ok height → 1 < height →
      ∃ recovering appended, Recovery ext allowed halt height.toNat recovering appended done ∧
        recovering 1 now) :
    Spec allowed start (recoverFromStorage ext) (fun _ => done) halt := by
  refine Spec.getNode_bind fun node => ?_
  cases held : node.storage with
  | none => exact Spec.pure fun now begun => memory now begun.1 (by rw [begun.2,held])
  | some storage =>
    refine Spec.through (fun height now => start now ∧ now.node.storage = some storage ∧
      storage.loadChainHeight = .ok height) (Spec.lift
        (fun _ ok now begun => ⟨begun.1,by rw [begun.2,held],ok⟩) fun e error now begun =>
        unreadable now storage e begun.1 (by rw [begun.2,held]) error) fun height =>
      Spec.ite (fun low => Spec.pure fun now begun =>
        fresh now storage height begun.1 begun.2.1 begun.2.2 low) fun high => ?_
    rw [UInt64.not_le] at high
    have positive : 1 < height.toNat := UInt64.lt_iff_toNat_lt.mp high
    intro exec begun
    obtain ⟨recovering,appended,proof,enter⟩ :=
      replay exec.now storage height begun.2.1 begun.2.2.1 begun.2.2.2 high
    exact proof.recoverBlocks_spec 1 (height.toNat - 1) (by omega) exec ⟨begun.1,enter⟩

end TitanCore
