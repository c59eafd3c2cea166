import TitanCore.MessageSize
import TitanCore.NodeProgress

/-! Which messages a node sends that its peers read: those whose body is within the limit of
`readHeader`. A request, a pong, an own block and an own transaction always are. The blocks a
peer asks for and what a node passes on are as large as they are. -/
namespace TitanCore

def Fits (ext : Externals) (msg : Message) : Prop := (messageBody ext msg).length ≤ maxBodyLen

/-- What a message asks to be sent is small enough: the block or transaction to pass on, or the
blocks from the index it gives. -/
def Fitting (ext : Externals) (node : Node) (msg : Message) : Prop :=
  match msg.type with
  | .newBlock => ∀ block, blockFromJson msg.payload = .ok block →
    (node.blockchain.addBlock ext block).1 = true →
    (ext.dump msg.payload).length + 31 ≤ maxBodyLen
  | .newTx => ∀ tx, transactionFromJson msg.payload = .ok tx →
    (node.mempool.addTransaction ext node.state tx).1 = true →
    (ext.dump msg.payload).length + 28 ≤ maxBodyLen
  | .getBlocks => ∀ fromIndex : UInt64,
    (do (← msg.payload.at? (str "from")).getUInt64) = Except.ok fromIndex →
    elementsSize ext ((node.blockchain.chain.drop fromIndex.toNat).map Block.toJson) + 40 ≤ maxBodyLen
  | _ => True

section
variable (ext : Externals)

theorem blocksBody_length (elements : List Json) :
    (messageBody ext ⟨.blocks,blocksPayload elements⟩).length =
      40 + max 1 (elementsSize ext elements) := by
  have payload : (ext.dump (blocksPayload elements)).length =
      12 + max 1 (elementsSize ext elements) := by
    have array := dump_array_length ext elements
    rw [blocksPayload,Externals.dump]
    simp only [Externals.dump] at array
    simp only [Json.dump,Json.dumpFields,List.length_cons,List.length_append,List.length_nil,array]
    have keys := key_lengths
    omega
  have name : (messageTypeToString .blocks).length = 6 := rfl
  rw [messageBody_length ext _ rfl,payload,name]
  omega

theorem blocks_fit_iff (elements : List Json) :
    Fits ext ⟨.blocks,blocksPayload elements⟩ ↔ elementsSize ext elements + 40 ≤ maxBodyLen := by
  rw [Fits,blocksBody_length,maxBodyLen]
  omega

/-- What a list of blocks takes at the least. -/
theorem blocks_size (blocks : List Block) :
    blocks.length * 360 ≤ elementsSize ext (blocks.map Block.toJson) := by
  have each : (blocks.map Block.toJson).length * 360 ≤ elementsSize ext (blocks.map Block.toJson) := by
    apply le_elementsSize
    intro element member
    obtain ⟨block,-,rfl⟩ := List.mem_map.mp member
    have index := decimal_length block.index
    have timestamp := decimal_length block.timestamp
    rw [block_length,dump_array_length]
    omega
  rwa [List.length_map] at each

theorem newBlock_fits_iff {payload : Json} (value : payload.isNull = false) :
    Fits ext ⟨.newBlock,payload⟩ ↔ (ext.dump payload).length + 31 ≤ maxBodyLen := by
  have name : (messageTypeToString .newBlock).length = 9 := rfl
  rw [Fits,messageBody_length ext _ value,name]
  omega

theorem newTx_fits_iff {payload : Json} (value : payload.isNull = false) :
    Fits ext ⟨.newTx,payload⟩ ↔ (ext.dump payload).length + 28 ≤ maxBodyLen := by
  have name : (messageTypeToString .newTx).length = 6 := rfl
  rw [Fits,messageBody_length ext _ value,name]
  omega

theorem block_not_null {payload : Json} {block : Block} (decoded : blockFromJson payload = .ok block) :
    payload.isNull = false := by
  cases payload with
  | null => cases decoded
  | _ => rfl

theorem transaction_not_null {payload : Json} {tx : Transaction}
    (decoded : transactionFromJson payload = .ok tx) : payload.isNull = false := by
  cases payload with
  | null => cases decoded
  | _ => rfl

/-- The condition says exactly which of the answers that a message calls for fit. A section that dies or
throws before it answers makes none of them, and counts as one that does. -/
theorem fitting_iff (node : Node) (msg : Message) :
    Fitting ext node msg ↔ ∀ message, msg.Answer ext node message → Fits ext message := by
  obtain ⟨type,payload⟩ := msg
  cases type with
  | ping => simp [Fitting,Message.Answer]
  | pong => simp [Fitting,Message.Answer]
  | blocks => simp [Fitting,Message.Answer]
  | newBlock =>
    constructor
    · rintro fitting _ ⟨block,decoded,accepted,rfl⟩
      exact (newBlock_fits_iff ext (block_not_null decoded)).mpr (fitting block decoded accepted)
    · intro fits block decoded accepted
      exact (newBlock_fits_iff ext (block_not_null decoded)).mp (fits _ ⟨block,decoded,accepted,rfl⟩)
  | newTx =>
    constructor
    · rintro fitting _ ⟨tx,decoded,accepted,rfl⟩
      exact (newTx_fits_iff ext (transaction_not_null decoded)).mpr (fitting tx decoded accepted)
    · intro fits tx decoded accepted
      exact (newTx_fits_iff ext (transaction_not_null decoded)).mp (fits _ ⟨tx,decoded,accepted,rfl⟩)
  | getBlocks =>
    constructor
    · rintro fitting _ ⟨fromIndex,asked,rfl⟩
      exact (blocks_fit_iff ext _).mpr (fitting fromIndex asked)
    · intro fits fromIndex asked
      exact (blocks_fit_iff ext _).mp (fits _ ⟨fromIndex,asked,rfl⟩)

/-- A transaction with a full signature is short, whatever its numbers are. -/
theorem verified_length {tx : Transaction} (verified : verifyTransaction ext tx = true) :
    (ext.dump tx.toJson).length + 1 ≤ 505 := by
  obtain ⟨-,-,accepted⟩ := (verifyTransaction_iff ext tx).mp verified
  have size := transaction_length ext tx
  have amount := decimal_length tx.amount
  have nonce := decimal_length tx.nonce
  have timestamp := decimal_length tx.timestamp
  have signature := verify_length ext accepted
  omega

theorem Ordinary.fits {message : Message} (ordinary : Ordinary ext message) : Fits ext message := by
  cases ordinary with
  | pong =>
    have body : (messageBody ext ⟨.pong,.null⟩).length = 28 := rfl
    rw [Fits,body]
    decide
  | getBlocks height =>
    have digits := decimal_length height
    have payload : (ext.dump (fromPayload height)).length = 9 + (decimal height.toNat).length := by
      rw [fromPayload,Externals.dump]
      simp only [Json.dump,Json.dumpFields,List.length_cons,List.length_append,List.length_nil]
      have keys := key_lengths
      omega
    have name : (messageTypeToString .getBlocks).length = 10 := rfl
    rw [Fits,messageBody_length ext _ rfl,payload,name,maxBodyLen]
    omega
  | transaction verified =>
    have size := verified_length ext verified
    refine (newTx_fits_iff ext rfl).mpr ?_
    rw [maxBodyLen]
    omega

theorem createBlock_fits {keys : KeyPair} {previous block : Block}
    {transactions : List Transaction} {clock : UInt64} (few : transactions.length ≤ 100)
    (verified : ∀ tx ∈ transactions, verifyTransaction ext tx = true)
    (made : createBlock ext keys previous transactions clock = .ok block) :
    Fits ext ⟨.newBlock,block.toJson⟩ := by
  obtain ⟨signature,signed,rfl⟩ := signBlock_ok ext made
  have full : signature.length = 64 := by
    unfold sign at signed
    split at signed
    · next bytes _ =>
      obtain rfl := Except.ok.inj signed
      exact bytes.2
    · cases signed
  refine (newBlock_fits_iff ext rfl).mpr ?_
  have each : elementsSize ext (transactions.map Transaction.toJson) ≤
      (transactions.map Transaction.toJson).length * 505 := by
    apply elementsSize_le
    intro element member
    obtain ⟨tx,chosen,rfl⟩ := List.mem_map.mp member
    exact verified_length ext (verified tx chosen)
  rw [List.length_map] at each
  have index := decimal_length (previous.index + 1)
  have timestamp := decimal_length clock
  rw [block_length,dump_array_length,full,maxBodyLen]
  dsimp only
  omega

end

namespace Process

theorem finish_silent (now : Snapshot) (fates : List Fate) : finish (.ok none,⟨now,fates⟩) = .up now := by
  simp [finish,Snapshot.queue]

theorem step_getBlocks {ext : Externals} (config : Config) (parses : ext.ParseUndoesDump) (now : Snapshot)
    (fromIndex : UInt64) (fromPeer : Nat) (orders : Nat → IterationOrder) (fates : List Fate) :
    (Process.up now).step ext config
      (.receive (messageBody ext ⟨.getBlocks,fromPayload fromIndex⟩) fromPeer orders fates) =
    .up (now.send (.peer fromPeer)
      ⟨.blocks,blocksPayload ((now.node.blockchain.chain.drop fromIndex.toNat).map Block.toJson)⟩) := by
  rw [step_receive ext config parses _ _ rfl rfl (Ordinary.fits ext (.getBlocks fromIndex))]
  change finish (onGetBlocks (fromPayload fromIndex) fromPeer ⟨now,fates⟩) = _
  rw [onGetBlocks_replies rfl,finish_silent]

end Process

def Spoken (ext : Externals) (now : Snapshot) : Prop :=
  (∀ send ∈ now.sent, Fits ext send.message) ∧ ∀ send ∈ now.outbox, Fits ext send.message

def Framed (ext : Externals) (config : Config) (now : Snapshot) : Prop :=
  OfNode (Sound ext config) now ∧ Spoken ext now

def Left (ext : Externals) (_ : Option Node) (_ : Storage) (sent : List Send) (_ : List Event) : Prop :=
  ∀ send ∈ sent, Fits ext send.message

section
variable (ext : Externals) (config : Config)

theorem Spoken.acceptance (allowed : Fate → Prop) (orders : Nat → IterationOrder) (block : Block) :
    Acceptance ext allowed orders block (fun _ => Spoken ext) (Spoken ext) (Spoken ext) (Spoken ext)
      (Spoken ext) (Spoken ext) (Spoken ext) (Spoken ext) := by
  refine .frame (fun now later sent outbox spoken => ?_) fun _ _ spoken => spoken
  rw [Spoken,sent,outbox]
  exact spoken

theorem Framed.acceptance (orders : Nat → IterationOrder) (block : Block) :
    ∃ appended applied cleaned stored counted, Acceptance ext (fun _ => True) orders block
      (Process.afterwards (Framed ext config) (Left ext)) (Framed ext config) appended applied
      cleaned stored counted (Framed ext config) := by
  refine ⟨_,_,_,_,_,(Sound.acceptance ext config orders block).both
    (Spoken.acceptance ext _ orders block) fun reason now sound spoken => ?_⟩
  cases reason with
  | exception e => exact ⟨sound,spoken⟩
  | crash => exact spoken.1

theorem Framed.stable : Stable ext (fun _ => True) (fun _ => True) (Fits ext) (Framed ext config)
    (Process.afterwards (Framed ext config) (Left ext)) where
  interrupt := fun _ _ framed => framed
  admission := fun tx now framed => ⟨(Sound.stable ext config).admission tx now framed.1,framed.2⟩
  blame := fun text now framed => ⟨(Sound.stable ext config).blame text now framed.1,framed.2⟩
  reply := fun recipient message now framed _ fits => by
    refine ⟨framed.1,fun send member => ?_,framed.2.2⟩
    rcases List.mem_append.mp member with old | new
    · exact framed.2.1 send old
    · rw [List.mem_singleton.mp new]
      exact fits
  ordinary := fun _ ordinary => ordinary.fits ext
  produce := fun now order clock block framed made => by
    refine ⟨trivial,createBlock_fits ext (Mempool.getTransactionsForBlock_length _ _ _)
      (fun tx chosen => ?_) made⟩
    obtain ⟨hash,held⟩ := Mempool.mem_transactions.mp (Mempool.mem_getTransactionsForBlock chosen)
    exact (framed.1.pool.verified hash tx held).2
  accept := fun orders block _ => Framed.acceptance ext config orders block

theorem Spoken.recovery (stop : Nat) (sent : List Send) :
    Recovery ext (fun _ => True) (fun _ now => now.sent = sent) stop
      (fun _ now => now.sent = sent ∧ now.outbox = []) (fun _ now => now.sent = sent ∧ now.outbox = [])
      (fun now => now.sent = sent ∧ now.outbox = []) where
  unreadable := fun _ _ _ _ _ quiet _ _ => quiet.1
  missing := fun _ _ _ _ quiet _ _ => quiet
  refuse := fun _ _ _ _ _ quiet _ _ _ => quiet
  append := fun _ _ _ _ _ quiet _ _ _ _ same => by
    subst same
    exact ⟨quiet,quiet⟩
  finish := fun _ quiet => quiet
  memory := fun _ _ quiet _ => quiet
  crash := fun _ _ _ quiet => by rcases quiet with h | h <;> exact h.1

theorem recoverFromStorage_quiet (node : Node) (sent : List Send) (log : List Event) :
    Spec (fun _ => True) (fun now => now = ⟨node,[],sent,log⟩) (recoverFromStorage ext)
      (fun _ now => now.sent = sent ∧ now.outbox = []) fun _ now => now.sent = sent := by
  refine recoverFromStorage_spec ?_ ?_ ?_ ?_
  · rintro now rfl _; exact ⟨rfl,rfl⟩
  · rintro now _ _ rfl _ _; rfl
  · rintro now _ _ rfl _ _ _; exact ⟨rfl,rfl⟩
  · rintro now _ _ rfl _ _ _
    exact ⟨_,_,Spoken.recovery ext _ sent,rfl,rfl⟩

theorem Framed.lasting : Process.Lasting ext config (fun _ => True) (fun _ => True) (Fits ext)
    (Framed ext config) (Left ext) where
  stable := Framed.stable ext config
  boot := fun held disk sent log node left built => by
    have quiet := recoverFromStorage_quiet ext node sent log
    have sound := (Sound.lasting ext config).boot held disk sent log node trivial built
    refine Spec.consequence (Spec.halts (Spec.both sound quiet) fun _ now stopped => ?_)
      (fun _ h => ⟨h,h⟩) fun _ now outcome => ?_
    · rw [Left,stopped.2]
      exact left
    obtain ⟨holds,said,silent⟩ := outcome
    refine ⟨holds,?_,?_⟩
    · rw [said]
      exact left
    · rw [silent]
      simp
  kill := fun _ framed => framed.2.1
  queue := fun now send framed _ fits => by
    refine ⟨framed.1,framed.2.1,fun other member => ?_⟩
    rcases List.mem_append.mp member with old | new
    · exact framed.2.2 other old
    · rw [List.mem_singleton.mp new]
      exact fits
  broadcast := fun now position send framed found => by
    refine ⟨framed.1,fun other member => ?_,fun other member =>
      framed.2.2 other (List.mem_of_mem_eraseIdx member)⟩
    rcases List.mem_append.mp member with old | new
    · exact framed.2.1 other old
    · rw [List.mem_singleton.mp new]
      exact framed.2.2 send (List.mem_of_getElem? found)

theorem run_framed (actions : List Action)
    (fitting : ∀ earlier action later, actions = earlier ++ action :: later →
      ∀ msg, action.Brings ext msg → ∀ now, Process.run ext config earlier = .up now →
      Fitting ext now.node msg) :
    (Process.run ext config actions).Holds (Framed ext config) (Left ext) := by
  induction actions using List.reverseRecOn with
  | nil => exact List.forall_mem_nil _
  | append_singleton actions action ih =>
    rw [Process.run_concat]
    refine (Framed.lasting ext config).step_holds action (fun _ _ => trivial)
      (fun _ _ _ _ => trivial) (fun msg brings now up => ?_)
      (ih fun earlier other later split => ?_)
    · exact (fitting_iff ext now.node msg).mp
        (fitting actions action [] rfl msg brings now up)
    · exact fitting earlier other (later ++ [action]) (by rw [split]; simp)

/-- Every message of a run is one its receiver reads, as long as every message the node handles
asks for no more than fits. -/
theorem frames_fit (actions : List Action)
    (fitting : ∀ earlier action later, actions = earlier ++ action :: later →
      ∀ msg, action.Brings ext msg → ∀ now, Process.run ext config earlier = .up now →
      Fitting ext now.node msg) :
    ∀ send ∈ (Process.run ext config actions).sent, (messageBody ext send.message).length ≤ maxBodyLen := by
  have holds := run_framed ext config actions fitting
  cases state : Process.run ext config actions with
  | up now =>
    rw [state] at holds
    exact holds.2.1
  | down held disk sent log =>
    rw [state] at holds
    exact holds

end

namespace Reference

def request (fromIndex : UInt64) : Action :=
  .receive (messageBody libraries ⟨.getBlocks,fromPayload fromIndex⟩) 0 arrival []

theorem request_brings {fromIndex : UInt64} {msg : Message}
    (brings : (request fromIndex).Brings libraries msg) : msg = ⟨.getBlocks,fromPayload fromIndex⟩ := by
  have decoded := brings.2
  rw [deserializeMessage_body libraries libraries_parse _ rfl,Except.ok.injEq] at decoded
  exact decoded.symm

theorem step_request (config : Config) (now : Snapshot) (fromIndex : UInt64) :
    (Process.up now).step libraries config (request fromIndex) =
      .up (now.send (.peer 0) ⟨.blocks,blocksPayload
        ((now.node.blockchain.chain.drop fromIndex.toNat).map Block.toJson)⟩) :=
  Process.step_getBlocks config libraries_parse now fromIndex 0 arrival []

def producing (rounds : Nat) : List Action :=
  .boot [] :: List.replicate rounds (.produceBlock 0 arrival [])

theorem producing_succ (rounds : Nat) :
    producing (rounds + 1) = producing rounds ++ [.produceBlock 0 arrival []] := by
  rw [producing,producing,List.replicate_succ',List.cons_append]

theorem run_producing (rounds : Nat) (small : rounds + 1 < 2 ^ 64) :
    ∃ now, Process.run libraries (config validatorKeys ∅ false) (producing rounds) = .up now ∧
      now.node.blockchain.chain.length = rounds + 1 := by
  induction rounds with
  | zero =>
    have ran : (Process.run libraries (config validatorKeys ∅ false) [.boot []]).node?.any
      (fun node => node.blockchain.chain.length = 1) = true := by decide +kernel
    obtain ⟨now,up,one⟩ := Process.up_of_node ran
    exact ⟨now,up,of_decide_eq_true one⟩
  | succ rounds ih =>
    obtain ⟨now,up,length⟩ := ih (by omega)
    have sound := run_sound libraries (config validatorKeys ∅ false) (producing rounds)
    rw [up] at sound
    have turn : now.node.consensus.getProducer now.node.blockchain.getHeight = now.node.nodeAddr := by
      rw [sound.configured.nodeAddr]
      have address : deriveAddress libraries validatorKeys.publicKey = validatorAddress := by
        decide +kernel
      have single := now.node.consensus.getProducer_mem now.node.blockchain.getHeight
      rw [sound.configured.authorities] at single
      exact (List.mem_singleton.mp single).trans address.symm
    obtain ⟨_,exec,returned,block,rfl,-,stands⟩ := Spec.returns (produceBlock_turn sound
      validatorKeys_wellFormed (by rw [length]; exact small) arrival 0 turn) now rfl
      (List.forall_mem_nil _)
    refine ⟨_,by rw [producing_succ,Process.run_concat,up,Process.step,Process.runSection,returned]; rfl,?_⟩
    rw [Snapshot.queue,stands.chain,List.length_append,length]
    rfl

end Reference

open Reference in
theorem frames_fit_genesis : ∃ send, send.message.type = .blocks ∧
    send ∈ (Process.run libraries (config observerKeys ∅ false) [.boot [],request 0]).sent ∧
    (messageBody libraries send.message).length ≤ maxBodyLen := by
  have ran : (Process.run libraries (config observerKeys ∅ false) [.boot []]).node?.any
    (fun node => node.blockchain.chain = [genesis]) = true := by decide +kernel
  obtain ⟨now,up,single⟩ := Process.up_of_node ran
  have chain : now.node.blockchain.chain = [genesis] := of_decide_eq_true single
  have said : ⟨.peer 0,⟨.blocks,blocksPayload [genesis.toJson]⟩⟩ ∈
      (Process.run libraries (config observerKeys ∅ false) ([.boot []] ++ [request 0])).sent := by
    rw [Process.run_concat,up,step_request,chain]
    exact List.mem_append_right _ (List.mem_singleton.mpr rfl)
  refine ⟨_,rfl,said,frames_fit libraries (config observerKeys ∅ false) _ ?_ _ said⟩
  intro earlier action later split msg brings before up'
  rcases earlier with _ | ⟨first,_ | ⟨second,rest⟩⟩
  · obtain ⟨rfl,-⟩ := List.cons.inj split
    exact brings.elim
  · obtain ⟨rfl,same,-⟩ := List.cons.inj split
    obtain rfl := Process.up.inj (up.symm.trans up')
    obtain rfl := request_brings brings
    intro fromIndex asked
    obtain rfl : (0 : UInt64) = fromIndex := Except.ok.inj asked
    rw [chain]
    decide +kernel
  · have lengths := congrArg List.length split
    simp only [List.length_append,List.length_cons,List.length_nil] at lengths
    omega

open Reference in
/-- After sixty thousand blocks a peer that asks for the chain gets no answer it would read. -/
theorem frames_overflow : ¬ ∀ (actions : List Action),
    ∀ send ∈ (Process.run libraries (config validatorKeys ∅ false) actions).sent,
      (messageBody libraries send.message).length ≤ maxBodyLen := by
  intro always
  obtain ⟨now,up,length⟩ := run_producing 60000 (by decide)
  have said := always (producing 60000 ++ [request 1])
  rw [Process.run_concat,up,step_request] at said
  have fits := said _ (List.mem_append_right _ (List.mem_singleton.mpr rfl))
  have size := (blocks_fit_iff libraries _).mp fits
  have each := blocks_size libraries (now.node.blockchain.chain.drop 1)
  rw [List.length_drop,length] at each
  change elementsSize libraries ((now.node.blockchain.chain.drop 1).map Block.toJson) + 40 ≤
    16777216 at size
  omega

/-- The copy of the body stays inside what was allocated, the frame is as long as the prefix
and the body, and its first four bytes read back as the length of the body. -/
def ExactFrame (ext : Externals) (msg : Message) : Prop :=
  4 + (messageBody ext msg).length ≤ (4 + UInt32.ofNat (messageBody ext msg).length).toNat ∧
  ∃ (b0 b1 b2 b3 : UInt8) (rest : Bytes),
    serializeMessage ext msg = some (b0 :: b1 :: b2 :: b3 :: rest) ∧
    (b0 :: b1 :: b2 :: b3 :: rest).length = 4 + (messageBody ext msg).length ∧
    (decodeLength b0 b1 b2 b3).toNat = (messageBody ext msg).length

/-- The 32-bit length and sum are exact for every body up to `2 ^ 32 - 5` bytes and for none
above. -/
theorem exactFrame_iff (ext : Externals) (msg : Message) :
    ExactFrame ext msg ↔ (messageBody ext msg).length + 4 < 2 ^ 32 := by
  constructor
  · rintro ⟨-,b0,b1,b2,b3,rest,framed,-⟩
    by_contra large
    rw [serializeMessage_eq,if_neg large] at framed
    cases framed
  · intro small
    have whole : (UInt32.ofNat (messageBody ext msg).length).toNat = (messageBody ext msg).length := by
      rw [UInt32.toNat_ofNat']
      omega
    refine ⟨?_,_,_,_,_,messageBody ext msg,by rw [serializeMessage_eq,if_pos small]; rfl,?_,?_⟩
    · rw [UInt32.toNat_add,whole]
      change _ ≤ (4 + (messageBody ext msg).length) % 2 ^ 32
      omega
    · simp only [List.length_cons]
      omega
    · rw [decodeLength_encode,whole]

theorem long_reply_inexact (ext : Externals) {blocks : List Block} (many : 2 ^ 24 ≤ blocks.length) :
    ¬ ExactFrame ext ⟨.blocks,blocksPayload (blocks.map Block.toJson)⟩ := by
  rw [exactFrame_iff,blocksBody_length]
  have size := blocks_size ext blocks
  omega

open Reference in
/-- A reply with 2 ^ 24 blocks overruns its buffer, and a node that has produced as many sends
one; the documented capacity is almost six times that. -/
theorem exactFrame_overrun :
    ¬ ExactFrame libraries
      ⟨.blocks,blocksPayload ((List.replicate (2 ^ 24) first).map Block.toJson)⟩ ∧
    ∃ send ∈ (Process.run libraries (config validatorKeys ∅ false)
        (producing (2 ^ 24) ++ [request 1])).sent, ¬ ExactFrame libraries send.message := by
  refine ⟨long_reply_inexact libraries List.length_replicate.ge,?_⟩
  obtain ⟨now,up,length⟩ := run_producing (2 ^ 24) (by decide)
  rw [Process.run_concat,up,step_request]
  refine ⟨_,List.mem_append_right _ (List.mem_singleton.mpr rfl),long_reply_inexact libraries ?_⟩
  rw [List.length_drop,length]
  exact Nat.le_refl _

end TitanCore
