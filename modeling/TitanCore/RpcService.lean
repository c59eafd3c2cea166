import TitanCore.NodeLedger
import TitanCore.RpcErrors

/-! What requests do to the node, and what clients learn of it. Whatever a client sends, the node
only takes transactions from it; and from the answers the whole chain can be read. -/
namespace TitanCore

def Mempool.verdicts (ext : Externals) (state : StateManager) :
    Mempool → List Transaction → List (Transaction × Except Bytes Unit)
  | _,[] => []
  | pool,tx :: rest =>
    (tx,pool.checkTransaction ext state tx) :: verdicts ext state (pool.addTransaction ext state tx).2 rest

def accepted? : Transaction × Except Bytes Unit → Option Transaction
  | (tx,.ok _) => some tx
  | (_,.error _) => none

def reason? : Transaction × Except Bytes Unit → Option Bytes
  | (_,.ok _) => none
  | (_,.error text) => some text

namespace Snapshot
variable (ext : Externals)

def submit (tx : Transaction) (now : Snapshot) : Snapshot :=
  let admitted := now.onNode (Node.addTransaction ext tx)
  if (now.node.mempool.addTransaction ext now.node.state tx).1 then
    { admitted with sent := admitted.sent ++ [announcement tx] }
  else admitted.onNode fun node => { node with lastError := node.mempool.lastError }

/-- The node fed its pool, told its peers of each transaction that it took, and kept the reason for
the last one that it did not. -/
structure Fed (transactions : List Transaction) (before after : Snapshot) : Prop where
  node : after.node = { before.node with
    mempool := before.node.mempool.addTransactions ext before.node.state transactions
    lastError := ((before.node.mempool.verdicts ext before.node.state transactions).filterMap
      reason?).getLast?.getD before.node.lastError }
  sent : after.sent = before.sent ++
    ((before.node.mempool.verdicts ext before.node.state transactions).filterMap accepted?).map announcement
  outbox : after.outbox = before.outbox
  log : after.log = before.log

theorem submit_accepted {ext : Externals} {tx : Transaction} {now : Snapshot}
    (check : now.node.mempool.checkTransaction ext now.node.state tx = .ok ()) :
    now.submit ext tx = { now with
      node := { now.node with mempool := (now.node.mempool.addTransaction ext now.node.state tx).2 }
      sent := now.sent ++ [announcement tx] } := by
  have added : (now.node.mempool.addTransaction ext now.node.state tx).1 = true := by
    rw [Mempool.addTransaction,check]
  rw [submit,if_pos added]
  rfl

theorem submit_refused {ext : Externals} {tx : Transaction} {now : Snapshot} {text : Bytes}
    (check : now.node.mempool.checkTransaction ext now.node.state tx = .error text) :
    now.submit ext tx = { now with
      node := { now.node with
        mempool := (now.node.mempool.addTransaction ext now.node.state tx).2
        lastError := text } } := by
  have refused : (now.node.mempool.addTransaction ext now.node.state tx).1 = false ∧
      (now.node.mempool.addTransaction ext now.node.state tx).2.lastError = text := by
    rw [Mempool.addTransaction,check]
    exact ⟨rfl,rfl⟩
  rw [submit,if_neg (by simp [refused.1])]
  simp only [onNode,Node.addTransaction,refused.2]

theorem Fed.submits (transactions : List Transaction) (before : Snapshot) :
    Fed ext transactions before (transactions.foldl (fun now tx => now.submit ext tx) before) := by
  induction transactions generalizing before with
  | nil => exact ⟨rfl,(List.append_nil _).symm,rfl,rfl⟩
  | cons tx rest ih =>
    have later := ih (before.submit ext tx)
    rw [List.foldl_cons]
    cases check : before.node.mempool.checkTransaction ext before.node.state tx with
    | ok taken =>
      rw [submit_accepted check] at later ⊢
      obtain ⟨node,sent,outbox,log⟩ := later
      refine ⟨?_,?_,outbox,log⟩
      · rw [node,Mempool.verdicts,check,List.filterMap_cons_none (by rfl)]
        rfl
      · rw [sent,Mempool.verdicts,check,List.filterMap_cons_some (by rfl),List.map_cons,List.append_assoc]
        rfl
    | error text =>
      rw [submit_refused check] at later ⊢
      obtain ⟨node,sent,outbox,log⟩ := later
      refine ⟨?_,?_,outbox,log⟩
      · rw [node,Mempool.verdicts,check,List.filterMap_cons_some (by rfl),List.getLast?_cons,Option.getD_some]
        rfl
      · rw [sent,Mempool.verdicts,check,List.filterMap_cons_none (by rfl)]

end Snapshot

namespace Rpc
open Program (Reads)

def submission (req : Json) : Option Transaction :=
  match req.find? (str "method") with
  | some (.string method) =>
    if method = str "submitTransaction" then
      match ((req.find? (str "params")).getD (.object [])).find? (str "transaction") with
      | some (.object fields) => (transactionFromJson (.object fields)).toOption
      | _ => none
    else none
  | _ => none

def submissions (ext : Externals) (bodies : List Bytes) : List Transaction :=
  bodies.filterMap fun body => (ext.parse body).toOption.bind submission

def serve (ext : Externals) (requests : List (UInt64 × Bytes)) (exec : Exec) : Exec :=
  requests.foldl (fun exec request => (handleRpc ext request.1 request.2 exec).2) exec

section reads
variable {ext : Externals} {peerCount : UInt64} {params : Json}

theorem dump_reads (object : Json) : Reads (dump ext object) := by
  unfold dump
  split
  · exact .pure _
  · exact .stop _

theorem explain_reads (id : Json) (e : Exn) : Reads (explain ext id e) := by
  unfold explain
  split
  · exact dump_reads _
  · exact dump_reads _

theorem getNode_reads : Reads getNode := fun _ => rfl

theorem catching_leaves {α : Type} {caught : ExnKind → Bool} {x : NodeM α} {handler : Exn → NodeM α}
    (handled : ∀ e, Reads (handler e)) (exec : Exec) : (catching caught x handler exec).2 = (x exec).2 := by
  refine Program.tryCatch_reads (fun interrupt => ?_) exec
  cases interrupt with
  | exception e =>
    dsimp only
    split
    · exact handled e
    · exact .stop _
  | crash => exact .stop _

theorem addressQuery_reads (name : Bytes) (query : Node → Address → UInt64) :
    Reads (addressQuery name query params) := by
  unfold addressQuery
  split
  · exact .bind (.lift _ _) fun _ => .bind getNode_reads fun _ => .pure _
  · exact .pure _

theorem handleGetBlockByIndex_reads : Reads (handleGetBlockByIndex params) := by
  unfold handleGetBlockByIndex
  split
  · intro exec
    rw [catching_leaves fun _ => .pure _]
    exact Reads.bind getNode_reads (fun _ => .bind (.lift _ _) fun _ => .pure _) exec
  · exact .pure _

theorem submit_leaves (tx : Transaction) (exec : Exec) :
    (submit ext tx exec).2 = ⟨exec.now.submit ext tx,exec.fates⟩ := by
  obtain ⟨now,fates⟩ := exec
  unfold submit
  rw [Program.bind_run,submitTransaction_run,Snapshot.submit]
  by_cases accepted : (now.node.mempool.addTransaction ext now.node.state tx).1 = true
  · rw [if_pos accepted,if_pos accepted]
    rfl
  · rw [if_neg accepted,if_neg accepted]
    rfl

/-- The only method that changes the node. -/
theorem handleSubmitTransaction_leaves (exec : Exec) : (handleSubmitTransaction ext params exec).2 =
    match params.find? (str "transaction") with
    | some (.object fields) =>
      match transactionFromJson (.object fields) with
      | .ok tx => ⟨exec.now.submit ext tx,exec.fates⟩
      | .error _ => exec
    | _ => exec := by
  unfold handleSubmitTransaction
  cases params.find? (str "transaction") with
  | none => rfl
  | some field =>
    cases field with
    | object fields =>
      dsimp only
      rw [catching_leaves fun _ => .pure _]
      cases transactionFromJson (.object fields) with
      | error e => rfl
      | ok tx =>
        have answered : ∀ accepted, Reads (if accepted = true then
            return .object [(str "accepted",.boolean true),(str "hash",.string (toHex tx.hash.val))]
          else return .object [(str "accepted",.boolean false),(str "error",.string (← getLastError))] :
            NodeM Json) := by
          intro accepted
          split
          · exact .pure _
          · exact .bind (.bind getNode_reads fun _ => .pure _) fun _ => .pure _
        exact (Program.bind_reads answered exec).trans (submit_leaves tx exec)
    | _ => rfl

theorem dispatch_leaves (method : Bytes) (exec : Exec) : (dispatch ext peerCount method params exec).2 =
    if method = str "submitTransaction" then (handleSubmitTransaction ext params exec).2 else exec := by
  unfold dispatch
  split_ifs with balance _ nonce _ height _ block _ size _ peers _
  · subst balance
    contradiction
  · exact addressQuery_reads _ _ exec
  · subst nonce
    contradiction
  · exact addressQuery_reads _ _ exec
  · subst height
    contradiction
  · rfl
  · subst block
    contradiction
  · exact handleGetBlockByIndex_reads exec
  · subst size
    contradiction
  · rfl
  · subst peers
    contradiction
  · rfl
  · rfl
  · rfl

theorem answer_leaves {req id : Json} (clean : id.dumpFault = none) (exec : Exec) :
    (answer ext peerCount req id exec).2 =
      match submission req with
      | some tx => ⟨exec.now.submit ext tx,exec.fates⟩
      | none => exec := by
  unfold answer submission
  cases found : req.find? (str "method") with
  | none => exact dump_reads _ exec
  | some field =>
    cases field with
    | string method =>
      dsimp only
      have value : req.value (str "params") (.object []) =
          .ok ((req.find? (str "params")).getD (.object [])) := by
        cases req with
        | object fields => rfl
        | _ => cases found
      rw [value,dump_clean clean]
      change ((dispatch ext peerCount method _ >>= _) exec).2 = _
      refine (Program.bind_reads (fun result => ?_) exec).trans ?_
      · split
        · exact .bind (.lift _ _) fun _ => .bind (.lift _ _) fun _ => dump_reads _
        · exact dump_reads _
      · rw [dispatch_leaves,handleSubmitTransaction_leaves]
        split_ifs with asked
        · cases ((req.find? (str "params")).getD (.object [])).find? (str "transaction") with
          | none => rfl
          | some field =>
            cases field with
            | object fields =>
              dsimp only
              cases transactionFromJson (.object fields) <;> rfl
            | _ => rfl
        · rfl
    | _ => exact dump_reads _ exec

theorem handleRpc_leaves (utf8 : ext.ParsesUtf8) (body : Bytes) (exec : Exec) :
    (handleRpc ext peerCount body exec).2 =
      match (ext.parse body).toOption.bind submission with
      | some tx => ⟨exec.now.submit ext tx,exec.fates⟩
      | none => exec := by
  rw [handleRpc,parse]
  cases parsed : ext.parse body with
  | error what => exact explain_reads _ _ exec
  | ok req =>
    have clean : ((req.find? (str "id")).getD .null).dumpFault = none := by
      cases found : req.find? (str "id") with
      | none => rfl
      | some id => exact Json.find?_fault (utf8 body req parsed) found
    exact (catching_leaves (fun e => explain_reads _ e) exec).trans (answer_leaves clean exec)

/-- Whatever requests come, the chain, the ledger and the stored data stay as they are: the node
only feeds its pool with the transactions in them, and announces those that it takes. -/
theorem serve_feeds (utf8 : ext.ParsesUtf8) (requests : List (UInt64 × Bytes)) (exec : Exec) :
    Snapshot.Fed ext (submissions ext (requests.map Prod.snd)) exec.now (serve ext requests exec).now := by
  have served : (serve ext requests exec).now =
      (submissions ext (requests.map Prod.snd)).foldl (fun now tx => now.submit ext tx) exec.now := by
    induction requests generalizing exec with
    | nil => rfl
    | cons request rest ih =>
      obtain ⟨peerCount,body⟩ := request
      have first : (handleRpc ext peerCount body exec).2 = _ := handleRpc_leaves utf8 body exec
      have later : (serve ext ((peerCount,body) :: rest) exec).now =
          (serve ext rest (handleRpc ext peerCount body exec).2).now := rfl
      rw [later,ih,first,submissions,submissions,List.map_cons,List.filterMap_cons]
      dsimp only
      cases (ext.parse body).toOption.bind submission <;> rfl
  rw [served]
  exact .submits ext _ exec.now

end reads

section client

def request (id : UInt64) (method : Bytes) (params : Json) : Json :=
  .object [(str "id",.unsigned id),(str "jsonrpc",.string (str "2.0")),(str "method",.string method),
    (str "params",params)]

variable (ext : Externals) (peerCount : UInt64)

/-- The client of the tests: it posts the text of a request and parses what it gets. -/
def rpcCall (method : Bytes) (params : Json) (id : UInt64) : NodeM Json := do
  let res ← handleRpc ext peerCount (ext.dump (request id method params))
  Program.lift .exception (ext.parseJson res.text)

def ask (method : Bytes) (params : Json) (name : Bytes) : NodeM Json := do
  let res ← rpcCall ext peerCount method params 1
  Program.lift .exception (do (← res.index (str "result")).index name)

def askNumber (method : Bytes) (params : Json) (name : Bytes) : NodeM UInt64 := do
  let answer ← ask ext peerCount method params name
  Program.lift .exception answer.getUInt64

def askAddress (method name : Bytes) (address : Address) : NodeM UInt64 :=
  askNumber ext peerCount method (.object [(str "address",.string (toHex address.val))]) name

def askBlock (index : Nat) : NodeM Block := do
  let answer ← ask ext peerCount (str "getBlockByIndex") (.object [(str "index",.unsigned (UInt64.ofNat index))])
    (str "block")
  Program.lift .exception (blockFromJson answer)

def askBlocks (i : Nat) : Nat → NodeM (List Block)
  | 0 => return []
  | count + 1 => do
    let block ← askBlock ext peerCount i
    let rest ← askBlocks (i + 1) count
    return block :: rest

def download : NodeM (List Block) := do
  let height ← askNumber ext peerCount (str "getChainHeight") (.object []) (str "height")
  askBlocks ext peerCount 0 height.toNat

end client

section answered
variable {ext : Externals} {peerCount : UInt64} {method : Bytes} {params result : Json} {exec after : Exec}

theorem canonical_request (id : UInt64) (valid : Json.utf8Valid method = true)
    (canonical : params.canonical = true) : (request id method params).canonical = true := by
  simp only [request,Json.canonical,Json.canonicalFields,Json.keysSorted,valid,canonical]
  decide +kernel

theorem canonical_success (id : UInt64) (canonical : result.canonical = true) :
    (successResponse result (.unsigned id)).canonical = true := by
  simp only [successResponse,Json.canonical,Json.canonicalFields,Json.keysSorted,canonical]
  decide +kernel

theorem rpcCall_answered (parses : ext.ParseUndoesDump) (id : UInt64) (valid : Json.utf8Valid method = true)
    (canonical : params.canonical = true) (answered : dispatch ext peerCount method params exec = (.ok result,after))
    (plain : result.find? (str "__rpc_error") = none) (returned : result.canonical = true) :
    rpcCall ext peerCount method params id exec = (.ok (successResponse result (.unsigned id)),after) := by
  have read : parse ext (ext.dump (request id method params)) = .ok (request id method params) := by
    rw [parse,parses _ (canonical_request id valid canonical)]
  have clean : (successResponse result (.unsigned id)).dumpFault = none :=
    Json.dumpFault_canonical _ (canonical_success id returned)
  have answer : answer ext peerCount (request id method params) (.unsigned id) exec =
      (.ok ⟨successResponse result (.unsigned id),ext.dump (successResponse result (.unsigned id))⟩,after) := by
    change (dispatch ext peerCount method params >>= _) exec = _
    rw [Program.bind_run,answered]
    dsimp only
    rw [plain]
    dsimp only
    rw [dump_clean clean]
    rfl
  have handled : handleRpc ext peerCount (ext.dump (request id method params)) exec =
      (.ok ⟨successResponse result (.unsigned id),ext.dump (successResponse result (.unsigned id))⟩,after) := by
    rw [handleRpc,read]
    change Program.tryCatch (Rpc.answer ext peerCount (request id method params) (.unsigned id)) _ exec = _
    rw [Program.tryCatch,answer]
  rw [rpcCall,Program.bind_run,handled]
  dsimp only
  rw [ext.parseJson_dump parses (canonical_success id returned)]
  rfl

theorem ask_answered {name : Bytes} {value : Json} (parses : ext.ParseUndoesDump)
    (valid : Json.utf8Valid method = true) (canonical : params.canonical = true)
    (answered : dispatch ext peerCount method params exec = (.ok (.object [(name,value)]),after))
    (plain : Json.utf8Valid name = true ∧ name ≠ str "__rpc_error") (returned : value.canonical = true) :
    ask ext peerCount method params name exec = (.ok value,after) := by
  have missing : (Json.object [(name,value)]).find? (str "__rpc_error") = none := if_neg plain.2.symm
  have whole : (Json.object [(name,value)]).canonical = true := by
    simp [Json.canonical,Json.canonicalFields,Json.keysSorted,plain.1,returned]
  have called := rpcCall_answered parses 1 valid canonical answered missing whole
  have found : Json.findField name [(name,value)] = some value := if_pos rfl
  rw [ask,Program.bind_run,called]
  change Program.lift .exception ((Json.object [(name,value)]).index name) after = _
  rw [Json.index,found]
  rfl

theorem canonical_address (address : Address) :
    (Json.object [(str "address",.string (toHex address.val))]).canonical = true := by
  simp only [Json.canonical,Json.canonicalFields,Json.keysSorted,utf8Valid_toHex]
  decide +kernel

theorem canonical_index (index : UInt64) :
    (Json.object [(str "index",.unsigned index)]).canonical = true := by
  simp only [Json.canonical,Json.canonicalFields,Json.keysSorted]
  decide +kernel

theorem askNumber_answered {name : Bytes} {number : UInt64} (parses : ext.ParseUndoesDump)
    (valid : Json.utf8Valid method = true) (canonical : params.canonical = true)
    (answered : dispatch ext peerCount method params exec = (.ok (.object [(name,.unsigned number)]),after))
    (plain : Json.utf8Valid name = true ∧ name ≠ str "__rpc_error") :
    askNumber ext peerCount method params name exec = (.ok number,after) := by
  rw [askNumber,Program.bind_run,ask_answered parses valid canonical answered plain rfl]
  rfl

theorem catching_returns {α : Type} {caught : ExnKind → Bool} {x : NodeM α} {handler : Exn → NodeM α} {a : α}
    (returns : x exec = (.ok a,after)) : catching caught x handler exec = (.ok a,after) := by
  rw [catching,Program.tryCatch,returns]

theorem addressQuery_answers (name : Bytes) (query : Node → Address → UInt64) (address : Address) (exec : Exec) :
    addressQuery name query (.object [(str "address",.string (toHex address.val))]) exec =
      (.ok (.object [(name,.unsigned (query exec.now.node address))]),exec) := by
  have found : (Json.object [(str "address",.string (toHex address.val))]).find? (str "address") =
    some (.string (toHex address.val)) := by rw [Json.find?,Json.findField,if_pos rfl]
  have read : fromHexFixed 20 (toHex address.val) = .ok address := by
    rw [fromHexFixed,fromHex_toHex]
    exact dif_pos address.property
  rw [addressQuery,found]
  dsimp only
  rw [read]
  rfl

theorem askBlock_answered (parses : ext.ParseUndoesDump) {i : Nat}
    (inside : i < exec.now.node.blockchain.chain.length) :
    askBlock ext peerCount i exec = (.ok exec.now.node.blockchain.chain[i],exec) := by
  have place : (UInt64.ofNat i).toNat = i := by
    rw [UInt64.toNat_ofNat',Nat.mod_eq_of_lt (inside.trans exec.now.node.blockchain.bounded)]
  have read : exec.now.node.blockchain.getBlock (UInt64.ofNat i) = .ok exec.now.node.blockchain.chain[i] := by
    have inside' : (UInt64.ofNat i).toNat < exec.now.node.blockchain.chain.length := place.symm ▸ inside
    rw [Blockchain.getBlock,dif_pos inside']
    simp only [place]
  have answered : dispatch ext peerCount (str "getBlockByIndex")
      (.object [(str "index",.unsigned (UInt64.ofNat i))]) exec =
      (.ok (.object [(str "block",exec.now.node.blockchain.chain[i].toJson)]),exec) := by
    have found : (Json.object [(str "index",.unsigned (UInt64.ofNat i))]).find? (str "index") =
      some (.unsigned (UInt64.ofNat i)) := by rw [Json.find?,Json.findField,if_pos rfl]
    have method : dispatch ext peerCount (str "getBlockByIndex") = handleGetBlockByIndex := rfl
    rw [method,handleGetBlockByIndex,found]
    dsimp only
    refine catching_returns ?_
    change (Program.lift Interrupt.exception (exec.now.node.blockchain.getBlock (UInt64.ofNat i)) >>= _) exec = _
    rw [read]
    rfl
  rw [askBlock,Program.bind_run,ask_answered parses rfl (canonical_index _) answered ⟨rfl,by decide⟩
    (Block.canonical_toJson _)]
  dsimp only
  rw [blockFromJson_toJson]
  rfl

theorem askBlocks_answered (parses : ext.ParseUndoesDump) {i count : Nat}
    (whole : i + count = exec.now.node.blockchain.chain.length) :
    askBlocks ext peerCount i count exec = (.ok (exec.now.node.blockchain.chain.drop i),exec) := by
  induction count generalizing i with
  | zero =>
    rw [List.drop_eq_nil_of_le (by omega)]
    rfl
  | succ count ih =>
    have inside : i < exec.now.node.blockchain.chain.length := by omega
    have later := ih (i := i + 1) (by omega)
    rw [askBlocks,Program.bind_run,askBlock_answered parses inside]
    dsimp only
    rw [Program.bind_run,later,List.drop_eq_getElem_cons inside]
    rfl

theorem download_answered (parses : ext.ParseUndoesDump) (exec : Exec) :
    download ext peerCount exec = (.ok exec.now.node.blockchain.chain,exec) := by
  have height : askNumber ext peerCount (str "getChainHeight") (.object []) (str "height") exec =
    (.ok exec.now.node.blockchain.getHeight,exec) := askNumber_answered parses rfl rfl rfl ⟨rfl,by decide⟩
  rw [download,Program.bind_run,height]
  dsimp only
  rw [Blockchain.getHeight_toNat,askBlocks_answered parses (Nat.zero_add _),List.drop_zero]

def onRecord (accounts : Accounts) (address : Address) : UInt64 × UInt64 :=
  ((accounts.lookup address).elim 0 AccountState.balance,(accounts.lookup address).elim 0 AccountState.nonce)

theorem getBalance_onRecord (node : Node) (address : Address) :
    (node.getBalance address,node.getNonce address) = onRecord node.state.accounts address := by
  cases held : node.state.accounts.lookup address <;>
    simp [Node.getBalance,Node.getNonce,StateManager.accountExists,StateManager.getBalance,
      StateManager.getNonce,onRecord,held]

/-- Clients can check a node by its own answers. One that asks for the height and then for one block
after the other is given the whole chain, and one that replays it from the genesis allocations finds
for every account the balance and the nonce that the node tells. Asking changes nothing. -/
theorem clients_audit (ext : Externals) (parses : ext.ParseUndoesDump) (config : Config) (actions : List Action)
    (node : Node) (reached : (Process.run ext config actions).node? = some node) (peerCount : UInt64)
    (exec : Exec) (asked : exec.now.node = node) :
    download ext peerCount exec = (.ok node.blockchain.chain,exec) ∧
    ∀ address, let (balance,nonce) := onRecord (ledgerOf config.genesisAllocations node.blockchain.chain) address
      askAddress ext peerCount (str "getBalance") (str "balance") address exec = (.ok balance,exec) ∧
      askAddress ext peerCount (str "getNonce") (str "nonce") address exec = (.ok nonce,exec) := by
  obtain ⟨now,-,rfl,sound⟩ := (run_sound ext config actions).node reached
  rw [← sound.ledger,← asked]
  refine ⟨download_answered parses exec,fun address => ?_⟩
  rw [← getBalance_onRecord]
  constructor
  · exact askNumber_answered parses rfl (canonical_address address)
      (addressQuery_answers (str "balance") Node.getBalance address exec) ⟨rfl,by decide⟩
  · exact askNumber_answered parses rfl (canonical_address address)
      (addressQuery_answers (str "nonce") Node.getNonce address exec) ⟨rfl,by decide⟩

open Reference in
/-- A chain of two blocks, from an observer. -/
theorem clients_audit_paying : ∃ node,
    (Process.run libraries (config observerKeys funded false) payingRun).node? = some node ∧
    node.blockchain.chain.length = 2 ∧
    download libraries 3 ⟨⟨node,[],[],[]⟩,[]⟩ = (.ok node.blockchain.chain,⟨⟨node,[],[],[]⟩,[]⟩) := by
  obtain ⟨node,reached,two,-⟩ := paying_agrees
  exact ⟨node,reached,two,(clients_audit libraries libraries_parse _ _ node reached 3 _ rfl).1⟩

end answered

section payment
open Reference

def payRequests : List (UInt64 × Bytes) := [(0,str "not json at all"),
  (1,libraries.dump (request 1 (str "getChainHeight") (.object []))),
  (1,libraries.dump (request 2 (str "submitTransaction") (.object [(str "transaction",payment.toJson)])))]

theorem serve_feeds_payment :
    Snapshot.Fed strictLibraries [payment] rpcStart.now (serve strictLibraries payRequests rpcStart).now := by
  have asked : submissions strictLibraries (payRequests.map Prod.snd) = [payment] := by decide +kernel
  exact asked ▸ serve_feeds strictLibraries_utf8 payRequests rpcStart

end payment
end Rpc
end TitanCore
