import TitanCore.Blockchain
import TitanCore.Mempool
import TitanCore.Message
import TitanCore.Program
import TitanCore.Storage

/-! A node and its locked sections. A section is a program over the node that may be stopped
by an exception or by a crash of the process; what it broadcasts after unlocking is returned. -/
namespace TitanCore

/-- The constructor's arguments; `persistent` is a non-empty data directory. -/
structure Config where
  nodeKeys : KeyPair
  genesisValidatorKeys : KeyPair
  authorities : List Address
  genesisAllocations : AddressMap UInt64
  persistent : Bool

structure Node where
  nodeKeys : KeyPair
  nodeAddr : Address
  consensus : PoAConsensus
  blockchain : Blockchain
  state : StateManager
  mempool : Mempool
  storage : Option Storage
  lastError : Bytes

/-- The queries the RPC layer makes. -/
def Node.getBalance (node : Node) (addr : Address) : UInt64 :=
  if node.state.accountExists addr = false then 0 else node.state.getBalance addr

def Node.getNonce (node : Node) (addr : Address) : UInt64 :=
  if node.state.accountExists addr = false then 0 else node.state.getNonce addr

/-- What the next step or write meets: it proceeds, a write fails with a status, or the
process dies before it. -/
inductive Fate where
  | proceed
  | fail (text : Bytes)
  | crash

inductive Interrupt where
  | exception (e : Exn)
  | crash

/-- `send` goes to one peer, `broadcast` to all but the excluded one. -/
inductive Recipient where
  | peer (id : Nat)
  | others (exclude : Option Nat)

structure Send where
  recipient : Recipient
  message : Message

/-- History kept for stating properties; no function of the node reads it. -/
inductive Event where
  | applied (block : Block) (before : Accounts) (chain : List Block) (after : Accounts)
  | heightSaved (block : Block)
  | completed (block : Block) (disk : Option Storage)

/-- The node, the broadcasts prepared under the lock and not yet made, what was handed to
peers and what happened so far. -/
structure Snapshot where
  node : Node
  outbox : List Send
  sent : List Send
  log : List Event

/-- A section in progress, and the fates its next steps will meet. -/
structure Exec where
  now : Snapshot
  fates : List Fate

abbrev NodeM := Program Exec Interrupt

namespace Snapshot

def onNode (now : Snapshot) (f : Node → Node) : Snapshot := { now with node := f now.node }

def record (now : Snapshot) (event : Event) : Snapshot := { now with log := now.log ++ [event] }

def send (now : Snapshot) (recipient : Recipient) (message : Message) : Snapshot :=
  { now with sent := now.sent ++ [⟨recipient,message⟩] }

end Snapshot

def getNode : NodeM Node := do return (← Program.get).now.node

def update (f : Snapshot → Snapshot) : NodeM Unit :=
  Program.modify fun exec => { exec with now := f exec.now }

def setNode (f : Node → Node) : NodeM Unit := update fun now => now.onNode f

def record (event : Node → Event) : NodeM Unit := update fun now => now.record (event now.node)

def send (recipient : Recipient) (message : Message) : NodeM Unit :=
  update fun now => now.send recipient message

def nextFate : NodeM Fate := fun exec =>
  match exec.fates with
  | [] => (.ok .proceed,exec)
  | fate :: rest => (.ok fate,{ exec with fates := rest })

def crashPoint : NodeM Unit := do
  match ← nextFate with
  | .crash => Program.stop .crash
  | _ => pure ()

def Node.disk (node : Node) : Storage := node.storage.getD Storage.empty

def Node.withStorage (saved : Storage) (node : Node) : Node := { node with storage := some saved }

def write (save : Node → Storage → Status → Except Exn Storage) : NodeM Unit := do
  let fate ← nextFate
  let node ← getNode
  match node.storage with
  | none => pure ()
  | some storage =>
    match fate with
    | .crash => Program.stop .crash
    | .fail text =>
      let saved ← Program.lift .exception (save node storage (some text))
      setNode (Node.withStorage saved)
    | .proceed =>
      let saved ← Program.lift .exception (save node storage none)
      setNode (Node.withStorage saved)

section
variable (ext : Externals)

/-- The chain after `addBlock`, whatever it returned. -/
def Node.addBlock (block : Block) (node : Node) : Node :=
  { node with blockchain := (node.blockchain.addBlock ext block).2 }

def addBlock (block : Block) : NodeM Bool := do
  crashPoint
  let node ← getNode
  setNode (Node.addBlock ext block)
  return (node.blockchain.addBlock ext block).1

/-- The ledger after `applyBlock`: every caller drops the result. -/
def Node.applyBlock (block : Block) (node : Node) : Node :=
  { node with state := (node.state.applyBlock block).2 }

def applyBlock (block : Block) : NodeM Unit := do
  crashPoint
  let node ← getNode
  setNode (Node.applyBlock block)
  record fun after => .applied block node.state.accounts after.blockchain.chain after.state.accounts

def Node.removeMinedTransactions (block : Block) (node : Node) : Node :=
  { node with mempool := node.mempool.removeMinedTransactions block }

/-- `orders` gives the visiting order of the pool at each chain length. -/
def Node.revalidate (orders : Nat → IterationOrder) (node : Node) : Node :=
  { node with
    mempool := (node.mempool.revalidate ext (orders node.blockchain.chain.length) node.state).2 }

/-- The pool after `addTransaction`, whatever it returned. -/
def Node.addTransaction (tx : Transaction) (node : Node) : Node :=
  { node with mempool := (node.mempool.addTransaction ext node.state tx).2 }

def saveAccount (addr : Address) : NodeM Unit := do
  let node ← getNode
  if node.state.accountExists addr then
    write fun node storage => storage.saveAccountState ext addr
      ⟨node.state.getBalance addr,node.state.getNonce addr⟩
  else pure ()

def saveAccounts : List Transaction → NodeM Unit
  | [] => pure ()
  | tx :: rest => do
    saveAccount ext (deriveAddress ext tx.senderPublicKey)
    saveAccount ext tx.recipient
    saveAccounts rest

def afterBlockAccepted (orders : Nat → IterationOrder) (block : Block) : NodeM Unit := do
  crashPoint
  setNode (Node.removeMinedTransactions block)
  setNode (Node.revalidate ext orders)
  let node ← getNode
  if node.storage.isSome then
    write fun _ storage => storage.saveBlock ext block
    write fun node storage => storage.saveChainHeight node.blockchain.getHeight
    record fun _ => .heightSaved block
    saveAccounts ext block.transactions
    record fun node => .completed block node.storage
  else record fun node => .completed block node.storage

/-- The sequence that production, gossip and sync repeat: append, apply, clean up. -/
def acceptBlock (orders : Nat → IterationOrder) (block : Block) : NodeM Bool := do
  let accepted ← addBlock ext block
  if accepted then
    applyBlock block
    afterBlockAccepted ext orders block
    return true
  else return false

/-- The replay of `remaining` stored blocks from index `i`. -/
def recoverBlocks (i : Nat) : Nat → NodeM Unit
  | 0 => pure ()
  | remaining + 1 => do
    let node ← getNode
    match node.storage with
    | none => pure ()
    | some storage =>
      let blockOpt ← Program.lift .exception (storage.loadBlock ext (UInt64.ofNat i))
      match blockOpt with
      | none => pure ()
      | some block =>
        let accepted ← addBlock ext block
        if accepted then
          applyBlock block
          recoverBlocks (i + 1) remaining
        else pure ()

def recoverFromStorage : NodeM Unit := do
  let node ← getNode
  match node.storage with
  | none => pure ()
  | some storage =>
    let storedHeight ← Program.lift .exception storage.loadChainHeight
    if storedHeight ≤ 1 then pure ()
    else recoverBlocks ext 1 (storedHeight.toNat - 1)

def admitTransaction (tx : Transaction) : NodeM Bool := do
  let node ← getNode
  setNode (Node.addTransaction ext tx)
  return (node.mempool.addTransaction ext node.state tx).1

/-- `none` is the result `false`; otherwise the transaction is broadcast after unlocking. -/
def submitTransaction (tx : Transaction) : NodeM (Option Send) := do
  let accepted ← admitTransaction ext tx
  if accepted then return some ⟨.others none,.newTx,tx.toJson⟩
  else
    setNode fun node => { node with lastError := node.mempool.lastError }
    return none

/-- `none` is the result `false`; otherwise the block is broadcast after unlocking. -/
def produceBlock (orders : Nat → IterationOrder) (now : UInt64) : NodeM (Option Send) := do
  let node ← getNode
  let nextIndex := node.blockchain.getHeight
  let expected := node.consensus.getProducer nextIndex
  if expected ≠ node.nodeAddr then return none
  else
    let txs := node.mempool.getTransactionsForBlock (orders node.blockchain.chain.length) 100
    let block ← Program.lift .exception
      (createBlock ext node.nodeKeys node.blockchain.getLatestBlock txs now)
    let accepted ← acceptBlock ext orders block
    if accepted then return some ⟨.others none,.newBlock,block.toJson⟩
    else return none

def fromPayload (height : UInt64) : Json := .object [(str "from",.unsigned height)]

/-- `{{"blocks", blocksArray}}`. -/
def blocksPayload (blocksArray : List Json) : Json := .object [(str "blocks",.array blocksArray)]

def onNewTx (payload : Json) (fromPeer : Nat) : NodeM (Option Send) := do
  let tx ← Program.lift .exception (transactionFromJson payload)
  let node ← getNode
  if node.mempool.contains tx.hash then return none
  else
    let accepted ← admitTransaction ext tx
    if accepted then return some ⟨.others (some fromPeer),.newTx,payload⟩
    else return none

def onNewBlock (orders : Nat → IterationOrder) (payload : Json) (fromPeer : Nat) :
    NodeM (Option Send) := do
  let block ← Program.lift .exception (blockFromJson payload)
  let node ← getNode
  let ourHeight := node.blockchain.getHeight
  if ourHeight < block.index then
    send (.peer fromPeer) ⟨.getBlocks,fromPayload ourHeight⟩
    return none
  else if block.index < ourHeight then return none
  else
    let accepted ← acceptBlock ext orders block
    if accepted then return some ⟨.others (some fromPeer),.newBlock,payload⟩
    else return none

def collectBlocks (blockchain : Blockchain) (i : Nat) : Nat → Except Exn (List Json)
  | 0 => .ok []
  | count + 1 => do
    let block ← blockchain.getBlock (UInt64.ofNat i)
    let rest ← collectBlocks blockchain (i + 1) count
    return block.toJson :: rest

def onGetBlocks (payload : Json) (fromPeer : Nat) : NodeM (Option Send) := do
  let fromIndex ← Program.lift .exception (do (← payload.at? (str "from")).getUInt64)
  let node ← getNode
  let height := node.blockchain.getHeight
  if height ≤ fromIndex then
    send (.peer fromPeer) ⟨.blocks,blocksPayload []⟩
    return none
  else
    let blocksArray ← Program.lift .exception
      (collectBlocks node.blockchain fromIndex.toNat (height.toNat - fromIndex.toNat))
    send (.peer fromPeer) ⟨.blocks,blocksPayload blocksArray⟩
    return none

/-- The loop of `onBlocks`: a known block is skipped, a gap or a rejected block ends it. -/
def syncBlocks (orders : Nat → IterationOrder) : List Json → NodeM Unit
  | [] => pure ()
  | blockJson :: rest => do
    let block ← Program.lift .exception (blockFromJson blockJson)
    let node ← getNode
    if block.index < node.blockchain.getHeight then syncBlocks orders rest
    else if block.index ≠ node.blockchain.getHeight then pure ()
    else
      let accepted ← acceptBlock ext orders block
      if accepted then syncBlocks orders rest
      else pure ()

def onBlocks (orders : Nat → IterationOrder) (payload : Json) : NodeM (Option Send) := do
  let blocksArray ← Program.lift .exception (payload.at? (str "blocks"))
  syncBlocks ext orders blocksArray.elements
  return none

def onPeerConnected (peer : Nat) : NodeM (Option Send) := do
  let node ← getNode
  send (.peer peer) ⟨.getBlocks,fromPayload node.blockchain.getHeight⟩
  return none

def handleMessage (orders : Nat → IterationOrder) (msg : Message) (fromPeer : Nat) :
    NodeM (Option Send) :=
  match msg.type with
  | .ping => do
    send (.peer fromPeer) ⟨.pong,.null⟩
    return none
  | .pong => return none
  | .newBlock => onNewBlock ext orders msg.payload fromPeer
  | .newTx => onNewTx ext msg.payload fromPeer
  | .getBlocks => onGetBlocks msg.payload fromPeer
  | .blocks => onBlocks ext orders msg.payload

/-- The members the constructor builds before it recovers the stored chain. -/
def construct (config : Config) (disk : Storage) : Except Exn Node := do
  let consensus ← PoAConsensus.create config.authorities
  let blockchain ← Blockchain.create ext config.genesisValidatorKeys (some consensus)
  return {
    nodeKeys := config.nodeKeys
    nodeAddr := deriveAddress ext config.nodeKeys.publicKey
    consensus,blockchain
    state := StateManager.create config.genesisAllocations
    mempool := Mempool.empty
    storage := if config.persistent then some disk else none
    lastError := [] }

end
end TitanCore
