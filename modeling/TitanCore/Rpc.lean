import TitanCore.Node
import TitanCore.StrictDump

/-! The JSON-RPC server. A request is handled as a program over the node, whose calls are the
node's locked sections; here no other thread runs between them. -/
namespace TitanCore

namespace Rpc

/-- The error codes of JSON-RPC 2.0. -/
def parseError : Int32 := -32700
def invalidRequest : Int32 := -32600
def methodNotFound : Int32 := -32601
def invalidParams : Int32 := -32602
def internalError : Int32 := -32603

/-- What the client is sent: a text, and the object it is the dump of. -/
structure Response where
  object : Json
  text : Bytes

/-- An object under `"__rpc_error"`, by which handlers tell `handleRpc` of an error. -/
def rpcError (code : Int32) (message : Bytes) : Json :=
  .object [(str "__rpc_error",
    .object [(str "code",.integer code.toInt64),(str "message",.string message)])]

def successResponse (result id : Json) : Json :=
  .object [(str "id",id),(str "jsonrpc",.string (str "2.0")),(str "result",result)]

def errorResponse (code : Int32) (message : Bytes) (id : Json) : Json :=
  .object [
    (str "error",.object [(str "code",.integer code.toInt64),(str "message",.string message)]),
    (str "id",id),
    (str "jsonrpc",.string (str "2.0"))]

def catching {α : Type} (caught : ExnKind → Bool) (x : NodeM α) (handler : Exn → NodeM α) : NodeM α :=
  Program.tryCatch x fun interrupt =>
    match interrupt with
    | .exception e => if caught e.kind then handler e else Program.stop (.exception e)
    | .crash => Program.stop .crash

section
variable (ext : Externals) (peerCount : UInt64)

/-- `dump`, which throws on a string that is not UTF-8. -/
def dump (object : Json) : NodeM Response :=
  match object.dumpFault with
  | none => pure ⟨object,ext.dump object⟩
  | some fault => Program.stop (.exception (Json.typeError "316" fault.text))

/-- `json::parse`. The text of an exception begins with its class: `out_of_range` for a number
no double holds, else `parse_error`. -/
def parse (body : Bytes) : Except Exn Json :=
  match ext.parse body with
  | .ok req => .ok req
  | .error what =>
    .error ⟨if (str "[json.exception.out_of_range.").isPrefixOf what then .outOfRange else .parseError,what⟩

def addressQuery (name : Bytes) (query : Node → Address → UInt64) (params : Json) : NodeM Json :=
  match params.find? (str "address") with
  | some (.string address) => do
    let addr ← Program.lift .exception (fromHexFixed 20 address)
    let node ← getNode
    return .object [(name,.unsigned (query node addr))]
  | _ => return rpcError invalidParams (str "Missing 'address' parameter")

def handleGetBalance (params : Json) : NodeM Json := addressQuery (str "balance") Node.getBalance params

def handleGetNonce (params : Json) : NodeM Json := addressQuery (str "nonce") Node.getNonce params

def handleGetChainHeight (_ : Json) : NodeM Json := do
  return .object [(str "height",.unsigned (← getNode).blockchain.getHeight)]

def handleGetBlockByIndex (params : Json) : NodeM Json :=
  match params.find? (str "index") with
  | some (.unsigned index) =>
    catching (· == .outOfRange)
      (do
        let node ← getNode
        let block ← Program.lift .exception (node.blockchain.getBlock index)
        return .object [(str "block",block.toJson)])
      fun e => return rpcError invalidParams (str "Block not found: " ++ e.what)
  | _ => return rpcError invalidParams (str "Missing or invalid 'index' parameter")

def handleGetMempoolSize (_ : Json) : NodeM Json := do
  return .object [(str "size",.unsigned (UInt64.ofNat (← getNode).mempool.size))]

/-- The number of peers is the network's, not the node's. -/
def handleGetPeerCount (_ : Json) : NodeM Json := do
  return .object [(str "count",.unsigned peerCount)]

/-- `Node::submitTransaction`: the locked section, and the broadcast after it. -/
def submit (tx : Transaction) : NodeM Bool := do
  match ← submitTransaction ext tx with
  | some broadcast =>
    send broadcast.recipient broadcast.message
    return true
  | none => return false

/-- `Node::getLastError`, a locked section of its own. -/
def getLastError : NodeM Bytes := do return (← getNode).lastError

def handleSubmitTransaction (params : Json) : NodeM Json :=
  match params.find? (str "transaction") with
  | some (.object fields) =>
    catching (fun _ => true)
      (do
        let tx ← Program.lift .exception (transactionFromJson (.object fields))
        let accepted ← submit ext tx
        if accepted then
          return .object [(str "accepted",.boolean true),(str "hash",.string (toHex tx.hash.val))]
        else
          return .object [(str "accepted",.boolean false),(str "error",.string (← getLastError))])
      fun e => return rpcError invalidParams (str "Invalid transaction: " ++ e.what)
  | _ => return rpcError invalidParams (str "Missing 'transaction' object")

def dispatch (method : Bytes) (params : Json) : NodeM Json :=
  if method = str "getBalance" then handleGetBalance params
  else if method = str "getNonce" then handleGetNonce params
  else if method = str "getChainHeight" then handleGetChainHeight params
  else if method = str "getBlockByIndex" then handleGetBlockByIndex params
  else if method = str "getMempoolSize" then handleGetMempoolSize params
  else if method = str "getPeerCount" then handleGetPeerCount peerCount params
  else if method = str "submitTransaction" then handleSubmitTransaction ext params
  else return rpcError methodNotFound (str "Unknown method: " ++ method)

def answer (req id : Json) : NodeM Response :=
  match req.find? (str "method") with
  | some (.string method) => do
    let params ← Program.lift .exception (req.value (str "params") (.object []))
    let _ ← dump ext id -- the line for the log prints the id
    let result ← dispatch ext peerCount method params
    match result.find? (str "__rpc_error") with
    | some err =>
      let code ← Program.lift .exception ((err.index (str "code")).bind Json.getInt)
      let msg ← Program.lift .exception ((err.index (str "message")).bind Json.getString)
      dump ext (errorResponse code msg id)
    | none => dump ext (successResponse result id)
  | _ => dump ext (errorResponse invalidRequest (str "Missing or invalid 'method' field") id)

/-- The two `catch` clauses; what they throw themselves nobody catches. -/
def explain (id : Json) (e : Exn) : NodeM Response :=
  if e.kind = .parseError then
    dump ext (errorResponse parseError (str "JSON parse error: " ++ e.what) id)
  else dump ext (errorResponse internalError (str "Internal error: " ++ e.what) id)

/-- The id is null until the request is parsed. -/
def handleRpc (body : Bytes) : NodeM Response :=
  match parse ext body with
  | .error e => explain ext .null e
  | .ok req =>
    let id := (req.find? (str "id")).getD .null
    catching (fun _ => true) (answer ext peerCount req id) (explain ext id)

end

end Rpc
end TitanCore
