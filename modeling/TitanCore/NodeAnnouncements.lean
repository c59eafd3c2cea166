import TitanCore.Network

/-! What a node announces of its own: transactions and blocks it has taken. An invariant that
counts them is proved of an admission and of an acceptance together with the announcement they
prepare, and these rules carry it through every section. -/
namespace TitanCore

def Message.announces (msg : Message) : Bool := msg.type = .newTx ∨ msg.type = .newBlock

@[simp] theorem Snapshot.queue_none (now : Snapshot) : now.queue none = now := by
  simp [Snapshot.queue]

/-- Invariants of what was announced: what admitting a transaction and accepting a block must
establish when the node comes across the message that brings them. -/
structure Announcing (ext : Externals) (allowed : Fate → Prop) (heard : Message → Prop)
    (rest : Snapshot → Prop) (halt : Interrupt → Snapshot → Prop) : Prop where
  interrupt : ∀ e now, rest now → halt (.exception e) now
  blame : ∀ text now, rest now → rest (now.onNode fun node => { node with lastError := text })
  reply : ∀ recipient message now, rest now → Sendable ext now.node message →
    message.announces = false → rest (now.send recipient message)
  admission : ∀ payload tx recipient now, heard ⟨.newTx,payload⟩ → transactionFromJson payload = .ok tx →
    rest now → rest ((now.onNode (Node.addTransaction ext tx)).queue
      (if (now.node.mempool.addTransaction ext now.node.state tx).1 then
        some ⟨recipient,.newTx,payload⟩ else none))
  accept : ∀ orders msg block, heard msg → msg.Carries block →
    ∃ appended applied cleaned stored counted kept : Snapshot → Prop,
      Bookkeeping ext allowed orders block halt rest appended applied cleaned stored counted kept ∧
      (∀ now, kept now → rest now) ∧
      ∀ recipient now, msg.type = .newBlock → kept now → rest (now.queue (some ⟨recipient,msg⟩))

namespace Announcing
variable {ext : Externals} {allowed : Fate → Prop} {heard : Message → Prop}
  {rest : Snapshot → Prop} {halt : Interrupt → Snapshot → Prop}

def Queued (rest : Snapshot → Prop) (deferred : Option Send) (now : Snapshot) : Prop :=
  rest (now.queue deferred)

theorem queued_none {now : Snapshot} (holds : rest now) : Queued rest none now := by
  rw [Queued,Snapshot.queue_none]
  exact holds

theorem admitTransaction_spec (announcing : Announcing ext allowed heard rest halt) {payload : Json}
    {tx : Transaction} (hears : heard ⟨.newTx,payload⟩) (decoded : transactionFromJson payload = .ok tx)
    (recipient : Recipient) :
    Spec allowed rest (admitTransaction ext tx) (fun accepted =>
      Queued rest (if accepted then some ⟨recipient,.newTx,payload⟩ else none)) halt := by
  refine Spec.getNode_bind fun node => Spec.through (fun _ => Queued rest
      (if (node.mempool.addTransaction ext node.state tx).1 then some ⟨recipient,.newTx,payload⟩ else none))
    (Spec.update fun now start => ?_) fun _ => Spec.pure fun _ holds => holds
  obtain ⟨holds,rfl⟩ := start
  exact announcing.admission payload tx recipient now hears decoded holds

theorem submitTransaction_spec (announcing : Announcing ext allowed heard rest halt) (tx : Transaction)
    (hears : heard ⟨.newTx,tx.toJson⟩) :
    Spec allowed rest (submitTransaction ext tx) (Queued rest) halt := by
  refine Spec.bind (announcing.admitTransaction_spec hears (transactionFromJson_toJson tx) (.others none))
    fun accepted => Spec.ite (fun yes => ?_) fun no => ?_
  · rw [if_pos yes]
    exact Spec.pure fun _ queued => queued
  · rw [if_neg no]
    refine Spec.through (fun _ => rest) (Spec.update fun now queued => ?_) fun _ =>
      Spec.pure fun _ => queued_none
    rw [Queued,Snapshot.queue_none] at queued
    exact announcing.blame now.node.mempool.lastError now queued

theorem acceptBlock_spec (announcing : Announcing ext allowed heard rest halt)
    (orders : Nat → IterationOrder) {msg : Message} {block : Block} (hears : heard msg)
    (carries : msg.Carries block) :
    Spec allowed rest (acceptBlock ext orders block) (fun accepted now => rest now ∧
      (accepted = true → msg.type = .newBlock → ∀ recipient, rest (now.queue (some ⟨recipient,msg⟩))))
      halt := by
  obtain ⟨_,_,_,_,_,kept,proof,plain,announce⟩ := announcing.accept orders msg block hears carries
  refine Spec.consequence proof.acceptBlock_spec (fun _ h => h) fun accepted now outcome => ?_
  cases accepted with
  | true => exact ⟨plain now outcome,fun _ type recipient => announce recipient now type outcome⟩
  | false => exact ⟨outcome,fun impossible => by cases impossible⟩

theorem accept_and_announce (announcing : Announcing ext allowed heard rest halt)
    (orders : Nat → IterationOrder) {payload : Json} {block : Block} (hears : heard ⟨.newBlock,payload⟩)
    (decoded : blockFromJson payload = .ok block) (recipient : Recipient) :
    Spec allowed rest (do
      let accepted ← acceptBlock ext orders block
      if accepted then return some ⟨recipient,.newBlock,payload⟩ else return none)
      (Queued rest) halt := by
  refine Spec.bind (announcing.acceptBlock_spec orders hears (.newBlock decoded)) fun accepted =>
    Spec.ite (fun yes => ?_) fun _ => Spec.pure fun _ outcome => queued_none outcome.1
  exact Spec.pure fun now outcome => outcome.2 yes rfl recipient

theorem produceBlock_spec (announcing : Announcing ext allowed heard rest halt)
    (orders : Nat → IterationOrder) (clock : UInt64)
    (hears : ∀ block : Block, heard ⟨.newBlock,block.toJson⟩) :
    Spec allowed rest (produceBlock ext orders clock) (Queued rest) halt := by
  refine Spec.getNode_bind fun node => Spec.ite (fun _ => Spec.pure fun _ start =>
    queued_none start.1) fun _ => Spec.through (fun _ => rest) (Spec.lift
    (fun _ _ _ start => start.1) fun e _ now start => announcing.interrupt e now start.1) fun block => ?_
  exact announcing.accept_and_announce orders (hears block) (blockFromJson_toJson block) _

theorem onNewTx_spec (announcing : Announcing ext allowed heard rest halt) (payload : Json)
    (hears : heard ⟨.newTx,payload⟩) (fromPeer : Nat) :
    Spec allowed rest (onNewTx ext payload fromPeer) (Queued rest) halt := by
  refine Spec.through (fun tx now => rest now ∧ transactionFromJson payload = .ok tx)
    (Spec.lift (fun _ ok _ start => ⟨start,ok⟩) fun e _ now start => announcing.interrupt e now start)
    fun tx => Spec.getNode_bind fun node => Spec.ite (fun _ => Spec.pure fun _ start =>
      queued_none start.1.1) fun _ exec start => ?_
  refine Spec.bind (announcing.admitTransaction_spec hears start.2.1.2 (.others (some fromPeer)))
    (fun accepted => Spec.ite (fun yes => ?_) fun no => ?_) exec ⟨start.1,start.2.1.1⟩
  · rw [if_pos yes]
    exact Spec.pure fun _ queued => queued
  · rw [if_neg no]
    exact Spec.pure fun _ queued => queued

theorem reply_spec (announcing : Announcing ext allowed heard rest halt) {pre : Snapshot → Prop}
    (peer : Nat) {message : Message} (silent : message.announces = false)
    (start : ∀ now, pre now → rest now ∧ Sendable ext now.node message) :
    Spec allowed pre (do send (.peer peer) message; return none) (Queued rest) halt :=
  Spec.through (fun _ => rest) (Spec.update fun now holds =>
    announcing.reply _ _ now (start now holds).1 (start now holds).2 silent) fun _ =>
      Spec.pure fun _ => queued_none

theorem onNewBlock_spec (announcing : Announcing ext allowed heard rest halt)
    (orders : Nat → IterationOrder) (payload : Json) (hears : heard ⟨.newBlock,payload⟩) (fromPeer : Nat) :
    Spec allowed rest (onNewBlock ext orders payload fromPeer) (Queued rest) halt := by
  refine Spec.through (fun block now => rest now ∧ blockFromJson payload = .ok block)
    (Spec.lift (fun _ ok _ start => ⟨start,ok⟩) fun e _ now start => announcing.interrupt e now start)
    fun block => Spec.getNode_bind fun node => Spec.ite (fun _ => ?_) fun _ =>
      Spec.ite (fun _ => Spec.pure fun _ start => queued_none start.1.1) fun _ exec start => ?_
  · refine announcing.reply_spec fromPeer rfl fun now start => ⟨start.1.1,?_⟩
    rw [← start.2]
    exact .getBlocks
  · exact announcing.accept_and_announce orders hears start.2.1.2 _ exec ⟨start.1,start.2.1.1⟩

theorem onGetBlocks_spec (announcing : Announcing ext allowed heard rest halt) (payload : Json)
    (fromPeer : Nat) : Spec allowed rest (onGetBlocks payload fromPeer) (Queued rest) halt := by
  refine Spec.through (fun _ => rest) (Spec.lift (fun _ _ _ start => start) fun e _ now start =>
    announcing.interrupt e now start) fun fromIndex => Spec.getNode_bind fun node =>
    Spec.ite (fun past => ?_) fun inside => ?_
  · refine announcing.reply_spec fromPeer rfl fun now start => ⟨start.1,?_⟩
    have none_left : (now.node.blockchain.chain.drop now.node.blockchain.chain.length).map Block.toJson = [] := by
      rw [List.drop_length]
      rfl
    rw [← none_left]
    exact .blocks _
  · rw [UInt64.not_le,UInt64.lt_iff_toNat_lt,Blockchain.getHeight_toNat] at inside
    rw [Blockchain.getHeight_toNat,collectBlocks_eq _ _ _ (by omega)]
    refine Spec.through (fun collected now => (rest now ∧ now.node = node) ∧
      collected = (node.blockchain.chain.drop fromIndex.toNat).map Block.toJson)
      (Spec.lift (fun _ ok _ start => ⟨start,(Except.ok.inj ok).symm⟩) fun _ error => by cases error)
      fun collected => announcing.reply_spec fromPeer rfl fun now start => ?_
    obtain ⟨⟨holds,rfl⟩,rfl⟩ := start
    exact ⟨holds,.blocks _⟩

theorem syncBlocks_spec (announcing : Announcing ext allowed heard rest halt)
    (orders : Nat → IterationOrder) {msg : Message} (hears : heard msg) (elements : List Json)
    (carries : ∀ blockJson ∈ elements, ∀ block, blockFromJson blockJson = .ok block → msg.Carries block) :
    Spec allowed rest (syncBlocks ext orders elements) (fun _ => rest) halt := by
  induction elements with
  | nil => exact Spec.pure fun _ h => h
  | cons blockJson later ih =>
    have others := ih fun other member => carries other (List.mem_cons_of_mem _ member)
    refine Spec.through (fun block now => rest now ∧ blockFromJson blockJson = .ok block)
      (Spec.lift (fun _ ok _ start => ⟨start,ok⟩) fun e _ now start => announcing.interrupt e now start)
      fun block => Spec.getNode_bind fun node =>
      Spec.ite (fun _ => Spec.weaken _ others fun _ h => h.1.1) fun _ =>
      Spec.ite (fun _ => Spec.pure fun _ start => start.1.1) fun _ exec start => ?_
    have carried := carries blockJson (by simp) block start.2.1.2
    exact Spec.bind (announcing.acceptBlock_spec orders hears carried) (fun accepted =>
      Spec.ite (fun _ => Spec.weaken _ others fun _ h => h.1) fun _ =>
        Spec.pure fun _ outcome => outcome.1) exec ⟨start.1,start.2.1.1⟩

theorem onBlocks_spec (announcing : Announcing ext allowed heard rest halt)
    (orders : Nat → IterationOrder) (payload : Json) (hears : heard ⟨.blocks,payload⟩) :
    Spec allowed rest (onBlocks ext orders payload) (Queued rest) halt := by
  refine Spec.through (fun blocksArray now => rest now ∧ payload.at? (str "blocks") = .ok blocksArray)
    (Spec.lift (fun _ ok _ start => ⟨start,ok⟩) fun e _ now start => announcing.interrupt e now start)
    fun blocksArray exec start => ?_
  have array := start.2.2
  exact Spec.bind (announcing.syncBlocks_spec orders hears blocksArray.elements
    fun blockJson member block decoded => .blocks array member decoded) (fun _ => Spec.pure fun _ =>
      queued_none) exec ⟨start.1,start.2.1⟩

theorem onPeerConnected_spec (announcing : Announcing ext allowed heard rest halt) (peer : Nat) :
    Spec allowed rest (onPeerConnected peer) (Queued rest) halt := by
  refine Spec.getNode_bind fun node => announcing.reply_spec peer rfl fun now start => ⟨start.1,?_⟩
  rw [← start.2]
  exact .getBlocks

/-- Every message of a peer that is heard. -/
theorem handleMessage_spec (announcing : Announcing ext allowed heard rest halt)
    (orders : Nat → IterationOrder) (msg : Message) (hears : heard msg) (fromPeer : Nat) :
    Spec allowed rest (handleMessage ext orders msg fromPeer) (Queued rest) halt := by
  obtain ⟨type,payload⟩ := msg
  cases type with
  | ping => exact announcing.reply_spec fromPeer rfl fun now start => ⟨start,.pong⟩
  | pong => exact Spec.pure fun _ => queued_none
  | newBlock => exact announcing.onNewBlock_spec orders payload hears fromPeer
  | newTx => exact announcing.onNewTx_spec payload hears fromPeer
  | getBlocks => exact announcing.onGetBlocks_spec payload fromPeer
  | blocks => exact announcing.onBlocks_spec orders payload hears

end Announcing
/-- The messages a section is about to deal with: one that arrives, or what it announces itself. -/
def Action.Hears (ext : Externals) (action : Action) (msg : Message) : Prop :=
  match action with
  | .submitTransaction tx => msg = ⟨.newTx,tx.toJson⟩
  | .produceBlock _ _ _ => ∃ block : Block, msg = ⟨.newBlock,block.toJson⟩
  | .receive body _ _ _ => body.length ≤ maxBodyLen ∧ deserializeMessage ext body = .ok msg
  | _ => False

def Action.boots : Action → Bool
  | .boot _ => true
  | _ => false

namespace Process

def prepared : Process → List Send
  | .up now => now.sent ++ now.outbox
  | .down _ _ sent _ => sent

/-- An invariant of what was announced, of a node that is not restarted. -/
structure Enduring (ext : Externals) (allowed : Fate → Prop) (heard : Message → Prop)
    (rest : Snapshot → Prop) (dead : Option Node → Storage → List Send → List Event → Prop) : Prop where
  announcing : Announcing ext allowed heard rest (afterwards rest dead)
  kill : ∀ now, rest now → dead (some now.node) now.node.disk now.sent now.log
  broadcast : ∀ now position send, rest now → now.outbox[position]? = some send →
    rest { now with outbox := now.outbox.eraseIdx position, sent := now.sent ++ [send] }

namespace Enduring
variable {ext : Externals} {config : Config} {allowed : Fate → Prop} {heard : Message → Prop}
  {rest : Snapshot → Prop} {dead : Option Node → Storage → List Send → List Event → Prop}

theorem section_holds {program : NodeM (Option Send)}
    (spec : Spec allowed rest program (Announcing.Queued rest) (afterwards rest dead))
    {fates : List Fate} (calm : ∀ fate ∈ fates, allowed fate) {process : Process}
    (holds : Holds rest dead process) : Holds rest dead (process.runSection program fates) := by
  cases process with
  | down held disk sent log => exact holds
  | up now =>
    have outcome := spec ⟨now,fates⟩ ⟨calm,holds⟩
    change Holds rest dead (finish (program ⟨now,fates⟩))
    cases result : program ⟨now,fates⟩ with
    | mk answer exec =>
      rw [result] at outcome
      cases answer with
      | ok deferred => exact outcome.2
      | error reason => cases reason <;> exact outcome

theorem step_holds (enduring : Enduring ext allowed heard rest dead) (action : Action)
    (calm : ∀ fate ∈ action.fates, allowed fate) (noBoot : action.boots = false)
    (hears : ∀ msg, action.Hears ext msg → heard msg) {process : Process}
    (holds : Holds rest dead process) : Holds rest dead (process.step ext config action) := by
  have announcing := enduring.announcing
  cases action with
  | boot fates => cases noBoot
  | kill =>
    cases process with
    | up now => exact enduring.kill now holds
    | down held disk sent log => exact holds
  | submitTransaction tx =>
    exact section_holds (announcing.submitTransaction_spec tx (hears _ rfl)) calm holds
  | produceBlock clock orders fates =>
    exact section_holds (announcing.produceBlock_spec orders clock fun block => hears _ ⟨block,rfl⟩)
      calm holds
  | receive body fromPeer orders fates =>
    by_cases long : maxBodyLen < body.length
    · simpa only [step,if_pos long] using holds
    · cases decoded : deserializeMessage ext body with
      | error e => simpa only [step,if_neg long,decoded] using holds
      | ok msg =>
        simp only [step,if_neg long,decoded]
        exact section_holds (announcing.handleMessage_spec orders msg
          (hears msg ⟨Nat.not_lt.mp long,decoded⟩) fromPeer) calm holds
  | peerConnected peer => exact section_holds (announcing.onPeerConnected_spec peer) calm holds
  | broadcast position =>
    cases process with
    | down held disk sent log => exact holds
    | up now =>
      simp only [step,Process.broadcast,Snapshot.broadcast]
      cases found : now.outbox[position]? with
      | none => exact holds
      | some send => exact enduring.broadcast now position send holds found

end Enduring
end Process
end TitanCore
