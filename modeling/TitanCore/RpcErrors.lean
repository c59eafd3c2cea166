import TitanCore.DecodedNumbers
import TitanCore.HexLanguage
import TitanCore.NodeGossip
import TitanCore.Rpc

/-! Which answer a request gets: that there is one, and the code of the error in it. -/
namespace TitanCore

def Plain (text : Bytes) : Prop := ∀ b ∈ text, b.toNat < 128

def PlainErrors {α : Type} (x : Except Exn α) : Prop := ∀ e, x = .error e → Plain e.what

section plain

theorem Plain.append {a b : Bytes} (left : Plain a) (right : Plain b) : Plain (a ++ b) :=
  fun c member => (List.mem_append.mp member).elim (left c) (right c)

theorem Plain.literal {text : Bytes} (ascii : text.all (fun b => b.toNat < 128) = true) : Plain text := by
  simpa [Plain] using ascii

theorem plain_decimal (n : Nat) : Plain (decimal n) := by
  intro b member
  have digit := decimal_digits n b member
  simp only [isDigit,Bool.and_eq_true,decide_eq_true_eq] at digit
  omega

theorem plain_toHex (data : Bytes) : Plain (toHex data) := fun b member => (toHex_ascii data b member).1

theorem Plain.valid {text : Bytes} (plain : Plain text) : Json.utf8Valid text = true :=
  Json.utf8Valid_ascii plain

theorem plain_typeName (j : Json) : Plain j.typeName := by
  cases j <;> exact .literal rfl

theorem PlainErrors.ok {α : Type} (a : α) : PlainErrors (.ok a) := fun _ same => nomatch same

theorem PlainErrors.error {α : Type} {e : Exn} (plain : Plain e.what) :
    PlainErrors (.error e : Except Exn α) := by
  rintro _ ⟨⟩
  exact plain

theorem PlainErrors.bind {α β : Type} {x : Except Exn α} {f : α → Except Exn β}
    (first : PlainErrors x) (second : ∀ a, PlainErrors (f a)) : PlainErrors (x >>= f) := by
  cases x with
  | error e => exact .error (first e rfl)
  | ok a => exact second a

theorem plainErrors_typeError {id : String} {text : Bytes} (plainId : Plain (str id)) (plain : Plain text) :
    Plain (Json.typeError id text).what := by
  have front : Plain (str "[json.exception.type_error.") := .literal rfl
  have back : Plain (str "] ") := .literal rfl
  exact ((front.append plainId).append back).append plain

theorem plainErrors_at {key : Bytes} (plain : Plain key) (j : Json) : PlainErrors (j.at? key) := by
  have front : Plain (str "[json.exception.out_of_range.403] key '") := .literal rfl
  have back : Plain (str "' not found") := .literal rfl
  have wrong : Plain (Json.typeError "304" (str "cannot use at() with " ++ j.typeName)).what :=
    plainErrors_typeError (.literal rfl) (.append (.literal rfl) (plain_typeName j))
  cases j with
  | object fields =>
    rw [Json.at?]
    split
    · exact .ok _
    · exact .error ((front.append plain).append back)
  | _ => exact .error wrong

theorem plainErrors_getString (j : Json) : PlainErrors j.getString := by
  have wrong : Plain (Json.typeError "302" (str "type must be string, but is " ++ j.typeName)).what :=
    plainErrors_typeError (.literal rfl) (.append (.literal rfl) (plain_typeName j))
  cases j with
  | string s => exact .ok s
  | _ => exact .error wrong

theorem plainErrors_getUInt64 (j : Json) : PlainErrors j.getUInt64 := by
  have wrong : Plain (Json.typeError "302" (str "type must be number, but is " ++ j.typeName)).what :=
    plainErrors_typeError (.literal rfl) (.append (.literal rfl) (plain_typeName j))
  cases j with
  | unsigned n => exact .ok n
  | integer n => exact .ok _
  | float x => exact .ok _
  | _ => exact .error wrong

theorem plainErrors_toArray {n : Nat} {data : Bytes} {failure : Exn} (plain : Plain failure.what) :
    PlainErrors (toArray n data failure) := by
  rw [toArray]
  split
  · exact .ok _
  · exact .error plain

theorem plainErrors_hexToArray (n : Nat) (hex : Bytes) : PlainErrors (hexToArray n hex) :=
  plainErrors_toArray (.append (.append (.append (.literal rfl) (plain_decimal _))
    (.literal rfl)) (plain_decimal _))

theorem plainErrors_array {α : Type} {key : Bytes} (plain : Plain key) (n : Nat) (j : Json)
    {f : ByteArr n → Except Exn α} (rest : ∀ data, PlainErrors (f data)) :
    PlainErrors (do f (← hexToArray n (← (← j.at? key).getString))) :=
  .bind (plainErrors_at plain j) fun _ => .bind (plainErrors_getString _) fun _ =>
    .bind (plainErrors_hexToArray n _) rest

theorem plainErrors_number {α : Type} {key : Bytes} (plain : Plain key) (j : Json)
    {f : UInt64 → Except Exn α} (rest : ∀ n, PlainErrors (f n)) :
    PlainErrors (do f (← (← j.at? key).getUInt64)) :=
  .bind (plainErrors_at plain j) fun _ => .bind (plainErrors_getUInt64 _) rest

theorem plainErrors_transactionFromJson (j : Json) : PlainErrors (transactionFromJson j) := by
  unfold transactionFromJson
  refine plainErrors_array (.literal rfl) 20 j fun _ => ?_
  refine plainErrors_array (.literal rfl) 20 j fun _ => ?_
  refine plainErrors_array (.literal rfl) 33 j fun _ => ?_
  refine plainErrors_number (.literal rfl) j fun _ => ?_
  refine plainErrors_number (.literal rfl) j fun _ => ?_
  refine plainErrors_number (.literal rfl) j fun _ => ?_
  refine .bind (plainErrors_at (.literal rfl) j) fun _ => ?_
  refine .bind (plainErrors_getString _) fun _ => ?_
  refine .bind (plainErrors_at (.literal rfl) j) fun _ => ?_
  refine .bind (plainErrors_getString _) fun _ => ?_
  exact .bind (plainErrors_toArray (.literal rfl)) fun _ => .ok _

theorem plainErrors_fromHexFixed (n : Nat) (hex : Bytes) : PlainErrors (fromHexFixed n hex) :=
  plainErrors_toArray (.append (.append (.append (.literal rfl) (plain_decimal _))
    (.literal rfl)) (plain_decimal _))

theorem plain_rejection {ext : Externals} {pool : Mempool} {state : StateManager} {tx : Transaction}
    {text : Bytes} (rejected : pool.checkTransaction ext state tx = .error text) : Plain text := by
  unfold Mempool.checkTransaction at rejected
  dsimp only at rejected
  split_ifs at rejected with verified fresh account nonce funded
  · cases rejected
    exact .literal rfl
  · cases rejected
    exact .append (.literal rfl) (plain_toHex _)
  · cases rejected
    exact .append (.literal rfl) (plain_toHex _)
  · cases rejected
    exact .append (.append (.append (.literal rfl) (plain_decimal _)) (.literal rfl))
      (plain_decimal _)
  · cases rejected
    exact .append (.append (.append (.append (.literal rfl) (plain_decimal _)) (.literal rfl))
      (plain_decimal _)) (.literal rfl)

end plain
namespace Rpc
open Program (Triple)

def Response.code (response : Response) : Option Int32 :=
  (response.object.find? (str "error")).bind fun error =>
    (error.find? (str "code")).bind fun code => code.getInt.toOption

/-- The text of a JSON-RPC 2.0 object for this id with a result or an error, and not both. -/
structure Answers (ext : Externals) (id : Json) (response : Response) : Prop where
  text : response.text = ext.dump response.object
  version : response.object.find? (str "jsonrpc") = some (.string (str "2.0"))
  id : response.object.find? (str "id") = some id
  either : (response.object.find? (str "result")).isSome = !(response.object.find? (str "error")).isSome

/-- What a handler returns: an error for `handleRpc`, or a result that can be dumped. -/
def Outcome (code : Option Int32) (j : Json) : Prop :=
  match code with
  | some code => ∃ message, Json.utf8Valid message = true ∧ j = rpcError code message
  | none => j.find? (str "__rpc_error") = none ∧ j.dumpFault = none

def Raised (code : Option Int32) (interrupt : Interrupt) : Prop :=
  ∃ e, interrupt = .exception e ∧ e.kind ≠ .parseError ∧ Plain e.what ∧ code = some internalError

def Handles (node : Node) (handler : NodeM Json) (code : Option Int32) : Prop :=
  Triple (fun exec => exec.now.node = node) handler (fun j _ => Outcome code j)
    fun interrupt _ => Raised code interrupt

def addressCode (params : Json) : Option Int32 :=
  match params.find? (str "address") with
  | some (.string address) => if (fromHex address).length = 20 then none else some internalError
  | _ => some invalidParams

def indexCode (node : Node) (params : Json) : Option Int32 :=
  match params.find? (str "index") with
  | some (.unsigned index) =>
    if index.toNat < node.blockchain.chain.length then none else some invalidParams
  | _ => some invalidParams

def transactionCode (params : Json) : Option Int32 :=
  match params.find? (str "transaction") with
  | some (.object fields) =>
    match transactionFromJson (.object fields) with
    | .ok _ => none
    | .error _ => some invalidParams
  | _ => some invalidParams

def methodCode (node : Node) (method : Bytes) (params : Json) : Option Int32 :=
  if method = str "getBalance" then addressCode params
  else if method = str "getNonce" then addressCode params
  else if method = str "getChainHeight" then none
  else if method = str "getBlockByIndex" then indexCode node params
  else if method = str "getMempoolSize" then none
  else if method = str "getPeerCount" then none
  else if method = str "submitTransaction" then transactionCode params
  else some methodNotFound

section handlers
variable {ext : Externals} {peerCount : UInt64} {node : Node} {params : Json}

theorem handles_refusal {code : Int32} {message : Bytes} (valid : Json.utf8Valid message = true) :
    Handles node (pure (rpcError code message)) (some code) :=
  Triple.pure fun _ _ => ⟨message,valid,rfl⟩

theorem outcome_object {fields : List (Bytes × Json)} (named : ∀ field ∈ fields,
    field.1 ≠ str "__rpc_error" ∧ Plain field.1 ∧ field.2.dumpFault = none) :
    Outcome none (.object fields) := by
  have absent : Json.findField (str "__rpc_error") fields = none := by
    induction fields with
    | nil => rfl
    | cons field rest ih =>
      have other := (named field (by simp)).1.symm
      rw [Json.findField,if_neg other]
      exact ih fun field member => named field (List.mem_cons_of_mem _ member)
  refine ⟨absent,?_⟩
  rw [Json.dumpFault]
  clear absent
  induction fields with
  | nil => rfl
  | cons field rest ih =>
    obtain ⟨-,plain,clean⟩ := named field (by simp)
    rw [Json.fieldsFault,Json.stringFault_eq_none.mpr plain.valid,clean]
    exact ih fun field member => named field (List.mem_cons_of_mem _ member)

theorem outcome_field {name : Bytes} {value : Json} (named : name ≠ str "__rpc_error")
    (plain : Plain name) (clean : value.dumpFault = none) : Outcome none (.object [(name,value)]) :=
  outcome_object fun _ member => by
    obtain rfl := List.mem_singleton.mp member
    exact ⟨named,plain,clean⟩

/-- What `submitTransaction` reports: whether the transaction was accepted, and one text more. -/
theorem outcome_submission (accepted : Bool) {name text : Bytes} (named : name ≠ str "__rpc_error")
    (plainName : Plain name) (plain : Plain text) :
    Outcome none (.object [(str "accepted",.boolean accepted),(name,.string text)]) := by
  have key : str "accepted" ≠ str "__rpc_error" ∧ Plain (str "accepted") := ⟨by decide,.literal rfl⟩
  refine outcome_object ?_
  simp only [List.forall_mem_cons]
  exact ⟨⟨key.1,key.2,rfl⟩,⟨named,plainName,Json.stringFault_eq_none.mpr plain.valid⟩,
    List.forall_mem_nil _⟩

theorem addressQuery_handles {name : Bytes} (named : name ≠ str "__rpc_error") (plain : Plain name)
    (query : Node → Address → UInt64) : Handles node (addressQuery name query params) (addressCode params) := by
  have missing : Handles node (pure (rpcError invalidParams (str "Missing 'address' parameter")))
    (some invalidParams) := handles_refusal rfl
  unfold addressQuery addressCode
  cases params.find? (str "address") with
  | none => exact missing
  | some field =>
    cases field with
    | string address =>
      dsimp only
      by_cases length : (fromHex address).length = 20
      · have read : fromHexFixed 20 address = .ok ⟨fromHex address,length⟩ := dif_pos length
        rw [read,if_pos length]
        exact fun exec _ => outcome_field named plain rfl
      · obtain ⟨e,kind,thrown⟩ : ∃ e : Exn, e.kind = .invalidArgument ∧ fromHexFixed 20 address = .error e :=
          ⟨_,rfl,dif_neg length⟩
        rw [if_neg length,thrown]
        exact fun exec _ => ⟨e,rfl,by rw [kind]; decide,plainErrors_fromHexFixed 20 address e thrown,rfl⟩
    | _ => exact missing

theorem catching_handles {x : NodeM Json} {code : Option Int32} {front : Bytes} (plain : Plain front)
    {caught : ExnKind → Bool}
    (tried : Triple (fun exec => exec.now.node = node) x (fun j _ => Outcome code j) fun interrupt _ =>
      ∃ e, interrupt = .exception e ∧ caught e.kind = true ∧ Plain e.what ∧ code = some invalidParams) :
    Handles node (catching caught x fun e => return rpcError invalidParams (front ++ e.what)) code := by
  refine Triple.tryCatch tried fun interrupt exec stopped => ?_
  obtain ⟨e,rfl,kind,what,rfl⟩ := stopped
  simp only [kind,if_true]
  exact ⟨front ++ e.what,(plain.append what).valid,rfl⟩

theorem reading_node {α : Type} {x : Node → NodeM α} {post : α → Exec → Prop}
    {halt : Interrupt → Exec → Prop} (next : Triple (fun exec => exec.now.node = node) (x node) post halt) :
    Triple (fun exec => exec.now.node = node) (getNode >>= x) post halt := by
  rintro exec rfl
  exact next exec rfl

theorem getBlock_cases (blockchain : Blockchain) (index : UInt64) :
    (index.toNat < blockchain.chain.length ∧ ∃ block, blockchain.getBlock index = .ok block) ∨
    (¬ index.toNat < blockchain.chain.length ∧ ∃ e, blockchain.getBlock index = .error e ∧
      e.kind = .outOfRange ∧ Plain e.what) := by
  by_cases inside : index.toNat < blockchain.chain.length
  · exact .inl ⟨inside,_,dif_pos inside⟩
  · refine .inr ⟨inside,_,dif_neg inside,rfl,?_⟩
    exact .append (.append (.append (.append (.literal rfl) (plain_decimal _)) (.literal rfl))
      (plain_decimal _)) (.literal rfl)

theorem getBlockByIndex_handles : Handles node (handleGetBlockByIndex params) (indexCode node params) := by
  have missing : Handles node
    (pure (rpcError invalidParams (str "Missing or invalid 'index' parameter"))) (some invalidParams) :=
    handles_refusal rfl
  unfold handleGetBlockByIndex indexCode
  cases params.find? (str "index") with
  | none => exact missing
  | some field =>
    cases field with
    | unsigned index =>
      dsimp only
      refine catching_handles (.literal rfl) (reading_node ?_)
      rcases getBlock_cases node.blockchain index with ⟨inside,block,read⟩ | ⟨outside,e,read,kind,plain⟩
      · rw [read,if_pos inside]
        exact fun exec _ => outcome_field (by decide) (.literal rfl)
          (Json.dumpFault_canonical _ block.canonical_toJson)
      · rw [read,if_neg outside]
        exact fun exec _ => ⟨e,rfl,by rw [kind]; rfl,plain,rfl⟩
    | _ => exact missing

/-- The call returns, and after a rejection the node holds the reason. -/
theorem submit_triple (tx : Transaction) :
    Triple (fun _ => True) (submit ext tx) (fun accepted exec => accepted = false → Plain exec.now.node.lastError)
      (fun _ _ => False) := by
  rintro ⟨now,fates⟩ -
  unfold submit
  rw [Program.bind_run,submitTransaction_run]
  cases check : now.node.mempool.checkTransaction ext now.node.state tx with
  | ok _ =>
    simp only [Mempool.addTransaction,check,if_true]
    intro refused
    cases refused
  | error text =>
    have reason : Plain text := plain_rejection check
    simp only [Mempool.addTransaction,check,Bool.false_eq_true,if_false]
    intro _
    simp only [Snapshot.onNode,Node.addTransaction,Mempool.addTransaction,check]
    exact reason

theorem submitTransaction_handles :
    Handles node (handleSubmitTransaction ext params) (transactionCode params) := by
  have missing : Handles node (pure (rpcError invalidParams (str "Missing 'transaction' object")))
    (some invalidParams) := handles_refusal rfl
  unfold handleSubmitTransaction transactionCode
  cases params.find? (str "transaction") with
  | none => exact missing
  | some field =>
    cases field with
    | object fields =>
      dsimp only
      refine catching_handles (.literal rfl) ?_
      cases decoded : transactionFromJson (.object fields) with
      | error e =>
        exact fun exec _ => ⟨e,rfl,rfl,plainErrors_transactionFromJson _ e decoded,rfl⟩
      | ok tx =>
        change Triple _ (submit ext tx >>= _) _ _
        refine Triple.bind (Triple.consequence (submit_triple tx) (fun _ _ => trivial)
          (fun _ _ told => told) fun _ _ bad => absurd bad id) fun result => ?_
        cases result with
        | true => exact fun exec _ => outcome_submission true (by decide) (.literal rfl) (plain_toHex _)
        | false =>
          exact fun exec reason => outcome_submission false (by decide) (.literal rfl) (reason rfl)
    | _ => exact missing

theorem dispatch_handles {method : Bytes} (valid : Json.utf8Valid method = true) :
    Handles node (dispatch ext peerCount method params) (methodCode node method params) := by
  have unknown : Json.utf8Valid (str "Unknown method: " ++ method) = true := by
    rw [Json.utf8Valid_append (Plain.literal rfl)]
    exact valid
  unfold dispatch methodCode
  split_ifs
  · exact addressQuery_handles (by decide) (.literal rfl) _
  · exact addressQuery_handles (by decide) (.literal rfl) _
  · exact fun exec _ => outcome_field (by decide) (.literal rfl) rfl
  · exact getBlockByIndex_handles
  · exact fun exec _ => outcome_field (by decide) (.literal rfl) rfl
  · exact fun exec _ => outcome_field (by decide) (.literal rfl) rfl
  · exact submitTransaction_handles
  · exact handles_refusal unknown

end handlers

section answers
variable {ext : Externals} {peerCount : UInt64} {node : Node}

def requestCode (node : Node) (req : Json) : Option Int32 :=
  match req.find? (str "method") with
  | some (.string method) => methodCode node method ((req.find? (str "params")).getD (.object []))
  | _ => some invalidRequest

theorem dump_clean {object : Json} (clean : object.dumpFault = none) :
    dump ext object = pure ⟨object,ext.dump object⟩ := by
  unfold dump
  rw [clean]

/-- `handleRpc` finds in the object what the handler put there. -/
theorem rpcError_read (code : Int32) (message : Bytes) :
    ∃ err, (rpcError code message).find? (str "__rpc_error") = some err ∧
      (err.index (str "code")).bind Json.getInt = .ok code ∧
      (err.index (str "message")).bind Json.getString = .ok message := by
  have number : Json.getInt (.integer code.toInt64) = .ok code.toInt64.toInt32 := rfl
  refine ⟨.object [(str "code",.integer code.toInt64),(str "message",.string message)],rfl,?_,?_⟩
  · rw [Int32.toInt32_toInt64] at number
    exact number
  · have apart : str "message" ≠ str "code" := by decide
    simp only [Json.index,Json.findField,if_neg apart,if_true,Option.getD_some]
    rfl

def Responds (ext : Externals) (id : Json) (code : Option Int32) (response : Response) : Prop :=
  Answers ext id response ∧ response.code = code

theorem errorResponse_fault (code : Int32) {message : Bytes} {id : Json} (clean : id.dumpFault = none) :
    (errorResponse code message id).dumpFault = Json.stringFault message := by
  have keys : Json.stringFault (str "error") = none ∧ Json.stringFault (str "code") = none ∧
      Json.stringFault (str "message") = none ∧ Json.stringFault (str "id") = none ∧
      Json.stringFault (str "jsonrpc") = none ∧ Json.stringFault (str "2.0") = none := ⟨rfl,rfl,rfl,rfl,rfl,rfl⟩
  simp [errorResponse,Json.dumpFault,Json.fieldsFault,keys,clean]

theorem dump_error (code : Int32) {message : Bytes} {id : Json} {pre : Exec → Prop}
    {halt : Interrupt → Exec → Prop} (valid : Json.utf8Valid message = true) (clean : id.dumpFault = none) :
    Triple pre (dump ext (errorResponse code message id)) (fun response _ => Responds ext id (some code) response)
      halt := by
  rw [dump_clean ((errorResponse_fault code clean).trans (Json.stringFault_eq_none.mpr valid))]
  refine Triple.pure fun _ _ => ⟨⟨rfl,rfl,rfl,rfl⟩,?_⟩
  have code' : Response.code ⟨errorResponse code message id,ext.dump (errorResponse code message id)⟩ =
    some code.toInt64.toInt32 := rfl
  rw [code',Int32.toInt32_toInt64]

theorem dump_success {result id : Json} {pre : Exec → Prop} {halt : Interrupt → Exec → Prop}
    (cleanResult : result.dumpFault = none) (clean : id.dumpFault = none) :
    Triple pre (dump ext (successResponse result id)) (fun response _ => Responds ext id none response) halt := by
  have keys : Json.stringFault (str "result") = none ∧ Json.stringFault (str "id") = none ∧
      Json.stringFault (str "jsonrpc") = none ∧ Json.stringFault (str "2.0") = none := ⟨rfl,rfl,rfl,rfl⟩
  have whole : (successResponse result id).dumpFault = none := by
    simp [successResponse,Json.dumpFault,Json.fieldsFault,keys,clean,cleanResult]
  rw [dump_clean whole]
  exact Triple.pure fun _ _ => ⟨⟨rfl,rfl,rfl,rfl⟩,rfl⟩

theorem answer_triple {req id : Json} (clean : req.dumpFault = none) (cleanId : id.dumpFault = none) :
    Triple (fun exec => exec.now.node = node) (answer ext peerCount req id)
      (fun response _ => Responds ext id (requestCode node req) response)
      fun interrupt _ => Raised (requestCode node req) interrupt := by
  have missing : Json.utf8Valid (str "Missing or invalid 'method' field") = true := rfl
  unfold answer requestCode
  cases found : req.find? (str "method") with
  | none => exact dump_error invalidRequest missing cleanId
  | some field =>
    cases field with
    | string method =>
      dsimp only
      have valid : Json.utf8Valid method = true :=
        Json.stringFault_eq_none.mp (Json.find?_fault clean found)
      have value : req.value (str "params") (.object []) =
          .ok ((req.find? (str "params")).getD (.object [])) := by
        cases req with
        | object fields => rfl
        | _ => cases found
      rw [value,dump_clean cleanId]
      change Triple _ (dispatch ext peerCount method _ >>= _) _ _
      refine Triple.bind (dispatch_handles valid) fun result => ?_
      generalize methodCode node method _ = code
      cases code with
      | none =>
        rintro exec ⟨absent,cleanResult⟩
        have told : Triple (fun _ => True) (dump ext (successResponse result id))
          (fun response _ => Responds ext id none response) (fun interrupt _ => Raised none interrupt) :=
          dump_success cleanResult cleanId
        rw [absent]
        exact told exec trivial
      | some code =>
        rintro exec ⟨message,valid,rfl⟩
        have told : Triple (fun _ => True) (dump ext (errorResponse code message id))
          (fun response _ => Responds ext id (some code) response)
          (fun interrupt _ => Raised (some code) interrupt) := dump_error code valid cleanId
        obtain ⟨err,kept,code_kept,message_kept⟩ := rpcError_read code message
        rw [kept]
        dsimp only
        rw [code_kept,message_kept]
        exact told exec trivial
    | _ => exact dump_error invalidRequest missing cleanId

theorem handleRpc_parsed (peerCount : UInt64) {body : Bytes} {req : Json} (parsed : ext.parse body = .ok req)
    (clean : req.dumpFault = none) :
    Triple (fun exec => exec.now.node = node) (handleRpc ext peerCount body)
      (fun response _ => Responds ext ((req.find? (str "id")).getD .null) (requestCode node req) response)
      fun _ _ => False := by
  have cleanId : ((req.find? (str "id")).getD .null).dumpFault = none := by
    cases found : req.find? (str "id") with
    | none => rfl
    | some id => exact Json.find?_fault clean found
  have read : parse ext body = .ok req := by rw [parse,parsed]
  rw [handleRpc,read]
  refine Triple.tryCatch (answer_triple clean cleanId) fun interrupt exec raised => ?_
  obtain ⟨e,rfl,kind,plain,code⟩ := raised
  have valid : Json.utf8Valid (str "Internal error: " ++ e.what) = true :=
    Plain.valid (.append (.literal rfl) plain)
  simp only [if_true,explain,if_neg kind]
  rw [code]
  have told : Triple (fun _ => True)
    (dump ext (errorResponse internalError (str "Internal error: " ++ e.what) _)) _ fun _ _ => False :=
    dump_error internalError valid cleanId
  exact told exec trivial

/-- What a body that does not parse is answered with, if it is. -/
theorem handleRpc_unparsed (peerCount : UInt64) {body what : Bytes} (failed : ext.parse body = .error what) :
    ∃ code front, Plain front ∧ handleRpc ext peerCount body =
      dump ext (errorResponse code (front ++ what) .null) := by
  rw [handleRpc,parse,failed]
  dsimp only
  rw [explain]
  split
  · exact ⟨_,_,.literal rfl,rfl⟩
  · exact ⟨_,_,.literal rfl,rfl⟩

def requestId (ext : Externals) (body : Bytes) : Json :=
  match ext.parse body with
  | .ok req => (req.find? (str "id")).getD .null
  | .error _ => .null

/-- The request is answered, whatever it is and whatever the node holds, unless what the parser
says of a body it refuses is not UTF-8: then the object that would say so cannot be dumped, and
what `dump` throws in the `catch` clause leaves `handleRpc`. -/
theorem handleRpc_answers_iff (ext : Externals) (utf8 : ext.ParsesUtf8) (peerCount : UInt64)
    (body : Bytes) (exec : Exec) :
    (∃ response after, handleRpc ext peerCount body exec = (.ok response,after) ∧
      Answers ext (requestId ext body) response) ↔
    ∀ what, ext.parse body = .error what → Json.utf8Valid what = true := by
  cases parsed : ext.parse body with
  | ok req =>
    refine iff_of_true ?_ fun _ other => nomatch other
    obtain ⟨response,after,ran,answers,-⟩ :=
      (handleRpc_parsed peerCount parsed (utf8 body req parsed)).returns (rfl : exec.now.node = _)
    exact ⟨response,after,ran,by rwa [requestId,parsed]⟩
  | error what =>
    obtain ⟨code,front,plain,ran⟩ := handleRpc_unparsed peerCount parsed
    have fault : (errorResponse code (front ++ what) .null).dumpFault = Json.stringFault (front ++ what) :=
      errorResponse_fault code rfl
    rw [ran,requestId,parsed]
    constructor
    · rintro ⟨response,after,told,-⟩ _ ⟨⟩
      rw [← Json.utf8Valid_append plain,← Json.stringFault_eq_none,← fault]
      cases stopped : (errorResponse code (front ++ what) .null).dumpFault with
      | none => rfl
      | some fault =>
        rw [dump,stopped] at told
        cases told
    · intro valid
      have told : Triple (fun _ => True) (dump ext (errorResponse code (front ++ what) .null))
        (fun response _ => Responds ext .null (some code) response) (fun _ _ => False) :=
        dump_error code ((Json.utf8Valid_append plain what).trans (valid what rfl)) rfl
      obtain ⟨response,after,ran,answers,-⟩ := told.returns (trivial : True)
      exact ⟨response,after,ran,answers⟩

end answers

end Rpc

namespace Reference
open Rpc

def invalidLiteral (b : UInt8) : Bytes :=
  str "[json.exception.parse_error.101] parse error at line 1, column 1: syntax error while parsing value - invalid literal; last read: '" ++
    [b] ++ str "'"

/-- With a parser that checks strings for UTF-8 and quotes the byte it stopped at. -/
def strictLibraries : Externals :=
  { libraries with
    parse := fun body =>
      match body with
      | [] => libraries.parse []
      | b :: rest =>
        if 128 ≤ b.toNat ∧ b ≠ 239 then .error (invalidLiteral b)
        else match libraries.parse (b :: rest) with
          | .ok j =>
            if j.dumpFault = none then .ok j
            else .error (str "[json.exception.parse_error.101] parse error: syntax error")
          | .error what => .error what }

theorem strictLibraries_utf8 : strictLibraries.ParsesUtf8 := by
  intro body j parsed
  unfold strictLibraries at parsed
  cases body with
  | nil =>
    have refused : (libraries.parse []).toOption.isNone = true := by decide +kernel
    dsimp only at parsed
    rw [parsed] at refused
    cases refused
  | cons b rest =>
    dsimp only at parsed
    split_ifs at parsed
    cases read : libraries.parse (b :: rest) with
    | error what =>
      rw [read] at parsed
      cases parsed
    | ok value =>
      rw [read] at parsed
      dsimp only at parsed
      split_ifs at parsed with clean
      cases parsed
      exact clean

def rpcNode : Node where
  nodeKeys := validatorKeys
  nodeAddr := validatorAddress
  consensus := schedule
  blockchain := ⟨[genesis],some schedule,[],by simp,by decide⟩
  state := StateManager.create ((∅ : AddressMap UInt64).insert validatorAddress 10)
  mempool := .empty
  storage := none
  lastError := []

def rpcStart : Exec := ⟨⟨rpcNode,[],[],[]⟩,[]⟩

end Reference

namespace Rpc
open Reference

/-- A body that is not JSON is answered all the same. -/
theorem handleRpc_answers_text :
    ∃ response after, handleRpc strictLibraries 0 (str "not json at all") rpcStart = (.ok response,after) ∧
      Answers strictLibraries (requestId strictLibraries (str "not json at all")) response := by
  refine (handleRpc_answers_iff strictLibraries strictLibraries_utf8 0 _ rpcStart).mpr ?_
  intro what failed
  have said : (match strictLibraries.parse (str "not json at all") with
    | .ok _ => false
    | .error text => Json.utf8Valid text) = true := by decide +kernel
  rwa [failed] at said

theorem handleRpc_literal {b : UInt8} {rest : Bytes} {fault : Json.Utf8Fault}
    (wide : 128 ≤ b.toNat ∧ b ≠ 239)
    (stopped : Json.stringFault (str "JSON parse error: " ++ invalidLiteral b) = some fault)
    (kind : (str "[json.exception.out_of_range.").isPrefixOf (invalidLiteral b) = false) (exec : Exec) :
    handleRpc strictLibraries 0 (b :: rest) exec =
      (.error (.exception (Json.typeError "316" fault.text)),exec) := by
  have refused : strictLibraries.parse (b :: rest) = .error (invalidLiteral b) := if_pos wide
  have object : (errorResponse parseError (str "JSON parse error: " ++ invalidLiteral b) .null).dumpFault =
    some fault := (errorResponse_fault parseError rfl).trans stopped
  rw [handleRpc,parse,refused]
  simp only [kind,Bool.false_eq_true,if_false,explain,if_true]
  rw [dump,object]
  rfl

/-- One byte, or one letter with an accent, and `handleRpc` ends with an exception. -/
theorem handleRpc_escapes :
    (handleRpc strictLibraries 0 [255] rpcStart).1 =
      .error (.exception (Json.typeError "316" (str "invalid UTF-8 byte at index 148: 0xFF"))) ∧
    (handleRpc strictLibraries 0 (str "é") rpcStart).1 =
      .error (.exception (Json.typeError "316" (str "invalid UTF-8 byte at index 149: 0x27"))) ∧
    ¬ ∀ body, ∃ response after, handleRpc strictLibraries 0 body rpcStart = (.ok response,after) ∧
      Answers strictLibraries (requestId strictLibraries body) response := by
  have byte : handleRpc strictLibraries 0 [255] rpcStart = (.error (.exception (Json.typeError "316"
      (Json.Utf8Fault.invalid 148 255).text)),rpcStart) :=
    handleRpc_literal (by decide) (by decide +kernel) (by decide +kernel) rpcStart
  have letter : handleRpc strictLibraries 0 [195,169] rpcStart = (.error (.exception (Json.typeError "316"
      (Json.Utf8Fault.invalid 149 39).text)),rpcStart) :=
    handleRpc_literal (by decide) (by decide +kernel) (by decide +kernel) rpcStart
  refine ⟨?_,?_,fun always => ?_⟩
  · rw [byte]
    rfl
  · rw [show str "é" = [195,169] by decide +kernel,letter]
    rfl
  · obtain ⟨response,after,ran,-⟩ := always [255]
    rw [byte] at ran
    cases ran

end Rpc
end TitanCore
