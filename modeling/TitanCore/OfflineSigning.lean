import TitanCore.Bootstrap
import TitanCore.RpcService

/-! A payment from the key file to the pool: signed without a node, printed, and submitted to one by
a client. What becomes of it depends on the sender's account and pending transactions alone. -/
namespace TitanCore

/-- The exit code, and what is printed on `stdout`; `now` is the clock. -/
def runSignTx (ext : Externals) (args : CliArgs) (now : UInt64) : CliM (Int32 × Bytes) :=
  if args.keyFile = [] then return (1,[])
  else if args.toAddress = [] then return (1,[])
  else if args.amount = 0 then return (1,[])
  else do
    let privateKey ← loadPrivateKey args.keyFile
    let publicKey ← Program.lift id (derivePublicKey ext privateKey)
    let recipient ← Program.lift id (fromHexFixed 20 args.toAddress)
    let tx ← Program.lift id (createTransaction ext ⟨privateKey,publicKey⟩ recipient args.amount args.nonce now)
    return (0,ext.dump tx.toJson ++ [10])

def paymentOf (ext : Externals) (keys : KeyPair) (recipient : Address) (amount nonce now : UInt64) : Transaction where
  sender := deriveAddress ext keys.publicKey
  recipient := recipient
  amount := amount
  nonce := nonce
  timestamp := now
  senderPublicKey := keys.publicKey
  signature := []
  hash := zeroHash

section signing
variable {ext : Externals}

theorem createTransaction_verified {keys : KeyPair} (wellFormed : keys.WellFormed ext) (recipient : Address)
    (amount nonce now : UInt64) : ∃ signature,
    createTransaction ext keys recipient amount nonce now =
      .ok { paymentOf ext keys recipient amount nonce now with
        hash := computeTransactionHash ext (paymentOf ext keys recipient amount nonce now)
        signature := signature } ∧
    verifyTransaction ext { paymentOf ext keys recipient amount nonce now with
      hash := computeTransactionHash ext (paymentOf ext keys recipient amount nonce now)
      signature := signature } = true := by
  obtain ⟨signature,signed,accepted⟩ :=
    wellFormed.accepts (computeTransactionHash ext (paymentOf ext keys recipient amount nonce now))
  refine ⟨signature,?_,(verifyTransaction_iff ext _).mpr ⟨rfl,rfl,accepted⟩⟩
  rw [createTransaction,signTransaction]
  have same : sign ext (computeTransactionHash ext (paymentOf ext keys recipient amount nonce now)) keys.privateKey =
    .ok signature := signed
  change (sign ext (computeTransactionHash ext (paymentOf ext keys recipient amount nonce now)) _ >>= _) = _
  rw [same]
  rfl

theorem runSignTx_prints {keys : KeyPair} (wellFormed : keys.WellFormed ext) {machine : Machine} {args : CliArgs}
    (named : args.keyFile ≠ []) (saved : machine.files args.keyFile = some (toHex keys.privateKey.val ++ [10]))
    {recipient : Address} (payee : args.toAddress = toHex recipient.val) (some_amount : args.amount ≠ 0) (now : UInt64) :
    ∃ tx, runSignTx ext args now machine = (.ok (0,ext.dump tx.toJson ++ [10]),machine) ∧
      verifyTransaction ext tx = true ∧ tx.sender = deriveAddress ext keys.publicKey ∧ tx.recipient = recipient ∧
      tx.amount = args.amount ∧ tx.nonce = args.nonce ∧ tx.timestamp = now := by
  obtain ⟨signature,created,verified⟩ :=
    createTransaction_verified wellFormed recipient args.amount args.nonce now
  refine ⟨_,?_,verified,rfl,rfl,rfl,rfl,rfl⟩
  have some_address : args.toAddress ≠ [] := by
    intro empty
    have length := toHex_length recipient.val
    rw [← payee,empty,recipient.property] at length
    cases length
  have derived : derivePublicKey ext keys.privateKey = .ok keys.publicKey := wellFormed.derived
  rw [runSignTx,if_neg named,if_neg some_address,if_neg some_amount,Program.bind_run,loadPrivateKey_saved saved]
  dsimp only
  rw [derived]
  change (Program.lift id (fromHexFixed 20 args.toAddress) >>= _ : CliM _) machine = _
  rw [payee,fromHexFixed_toHex]
  change (Program.lift id (createTransaction ext keys recipient args.amount args.nonce now) >>= _ : CliM _) machine = _
  rw [created]
  rfl

end signing

structure Acceptable (node : Node) (tx : Transaction) : Prop where
  fresh : node.mempool.pending.lookup tx.hash = none
  account : node.state.accountExists tx.sender = true
  nonce : tx.nonce = node.mempool.getPendingNonce node.state tx.sender
  funded : tx.amount ≤ node.mempool.getPendingBalance node.state tx.sender

theorem acceptable_iff {ext : Externals} {tx : Transaction} (verified : verifyTransaction ext tx = true) (node : Node) :
    Acceptable node tx ↔ node.mempool.checkTransaction ext node.state tx = .ok () := by
  rw [Mempool.checkTransaction_ok]
  constructor
  · intro acceptable
    exact ⟨verified,acceptable.fresh,acceptable.account,acceptable.nonce,acceptable.funded⟩
  · intro admissible
    exact ⟨admissible.fresh,admissible.account,admissible.nonce,admissible.funded⟩

namespace Rpc
variable {ext : Externals} {tx : Transaction} {exec : Exec}

def submissionResult (tx : Transaction) : Except Bytes Unit → Json
  | .ok _ => .object [(str "accepted",.boolean true),(str "hash",.string (toHex tx.hash.val))]
  | .error text => .object [(str "accepted",.boolean false),(str "error",.string text)]

theorem submissionResult_clean (verdict : Except Bytes Unit) (plain : ∀ text, verdict = .error text → Plain text) :
    (submissionResult tx verdict).find? (str "__rpc_error") = none ∧
      (submissionResult tx verdict).canonical = true := by
  cases verdict with
  | ok _ =>
    refine ⟨rfl,?_⟩
    simp only [submissionResult,Json.canonical,Json.canonicalFields,Json.keysSorted,utf8Valid_toHex]
    decide +kernel
  | error text =>
    refine ⟨rfl,?_⟩
    simp only [submissionResult,Json.canonical,Json.canonicalFields,Json.keysSorted,(plain text rfl).valid]
    decide +kernel

theorem handleSubmitTransaction_answers (tx : Transaction) (exec : Exec) :
    handleSubmitTransaction ext (.object [(str "transaction",tx.toJson)]) exec =
      (.ok (submissionResult tx (exec.now.node.mempool.checkTransaction ext exec.now.node.state tx)),
        ⟨exec.now.submit ext tx,exec.fates⟩) := by
  have found : (Json.object [(str "transaction",tx.toJson)]).find? (str "transaction") = some tx.toJson := by
    rw [Json.find?,Json.findField,if_pos rfl]
  have decoded := transactionFromJson_toJson tx
  obtain ⟨fields,object⟩ : ∃ fields, tx.toJson = .object fields := ⟨_,tx.toJson_fields⟩
  rw [object] at found decoded ⊢
  rw [handleSubmitTransaction,found]
  dsimp only
  refine catching_returns ?_
  rw [decoded]
  change (submit ext tx >>= _) exec = _
  rw [Program.bind_run]
  obtain ⟨now,fates⟩ := exec
  cases check : now.node.mempool.checkTransaction ext now.node.state tx with
  | ok taken =>
    have ran : submit ext tx ⟨now,fates⟩ = (.ok true,⟨now.submit ext tx,fates⟩) := by
      rw [submit,Program.bind_run,submitTransaction_run,if_pos (by rw [Mempool.addTransaction,check]),
        Snapshot.submit,if_pos (by rw [Mempool.addTransaction,check])]
      rfl
    rw [ran]
    rfl
  | error text =>
    have refused : ¬ (now.node.mempool.addTransaction ext now.node.state tx).1 = true := by
      rw [Mempool.addTransaction,check]
      exact Bool.false_ne_true
    have ran : submit ext tx ⟨now,fates⟩ = (.ok false,⟨now.submit ext tx,fates⟩) := by
      rw [submit,Program.bind_run,submitTransaction_run,if_neg refused,Snapshot.submit,if_neg refused]
      rfl
    rw [ran,Snapshot.submit_refused check]
    rfl

theorem canonical_submission (tx : Transaction) :
    (Json.object [(str "transaction",tx.toJson)]).canonical = true := by
  simp only [Json.canonical,Json.canonicalFields,Json.keysSorted,canonical_toJson]
  decide +kernel

theorem rpcCall_submission (parses : ext.ParseUndoesDump) (peerCount id : UInt64) (tx : Transaction) (exec : Exec) :
    rpcCall ext peerCount (str "submitTransaction") (.object [(str "transaction",tx.toJson)]) id exec =
      (.ok (successResponse (submissionResult tx
        (exec.now.node.mempool.checkTransaction ext exec.now.node.state tx)) (.unsigned id)),
        ⟨exec.now.submit ext tx,exec.fates⟩) := by
  let outcome := exec.now.node.mempool.checkTransaction ext exec.now.node.state tx
  have ⟨plain,returned⟩ : (submissionResult tx outcome).find? (str "__rpc_error") = none ∧
      (submissionResult tx outcome).canonical = true :=
    submissionResult_clean outcome fun text => plain_rejection
  exact rpcCall_answered parses id rfl (canonical_submission tx) (handleSubmitTransaction_answers tx exec) plain returned

end Rpc

section submitting
variable {ext : Externals} {tx : Transaction}

theorem Snapshot.submit_acceptable (verified : verifyTransaction ext tx = true) {now : Snapshot}
    (acceptable : Acceptable now.node tx) : (now.submit ext tx).node.mempool.pending.lookup tx.hash = some tx ∧
      (now.submit ext tx).sent = now.sent ++ [announcement tx] := by
  have check := (acceptable_iff verified now.node).mp acceptable
  rw [Snapshot.submit_accepted check,Mempool.addTransaction,check]
  exact ⟨AList.lookup_insert _,rfl⟩

theorem Snapshot.submit_unacceptable (verified : verifyTransaction ext tx = true) {now : Snapshot}
    (refused : ¬ Acceptable now.node tx) :
      (now.submit ext tx).node.mempool.pending = now.node.mempool.pending ∧ (now.submit ext tx).sent = now.sent := by
  rw [acceptable_iff verified now.node] at refused
  cases check : now.node.mempool.checkTransaction ext now.node.state tx with
  | ok taken => exact absurd check refused
  | error text =>
    rw [Snapshot.submit_refused check,Mempool.addTransaction,check]
    exact ⟨rfl,rfl⟩

end submitting

/-- A payment signed from a key file is printed as JSON that clients parse. A node that is sent it
takes it when the sender has an account, its nonce is the next one and its balance is enough, both
counting what is pending, and then keeps it and announces it once; otherwise it answers so and keeps
its pool. -/
theorem signed_payment (ext : Externals) (parses : ext.ParseUndoesDump) (keys : KeyPair)
    (wellFormed : keys.WellFormed ext) (machine : Machine) (args : CliArgs) (named : args.keyFile ≠ [])
    (saved : machine.files args.keyFile = some (toHex keys.privateKey.val ++ [10])) (recipient : Address)
    (payee : args.toAddress = toHex recipient.val) (some_amount : args.amount ≠ 0) (now : UInt64) :
    ∃ tx, runSignTx ext args now machine = (.ok (0,ext.dump tx.toJson ++ [10]),machine) ∧
      ext.parseJson (ext.dump tx.toJson) = .ok tx.toJson ∧
      (tx.sender,tx.recipient,tx.amount,tx.nonce) =
        (deriveAddress ext keys.publicKey,recipient,args.amount,args.nonce) ∧
      ∀ (peerCount id : UInt64) (exec : Exec), ∃ result after,
        Rpc.rpcCall ext peerCount (str "submitTransaction") (.object [(str "transaction",tx.toJson)]) id exec =
          (.ok (Rpc.successResponse result (.unsigned id)),after) ∧
        (result.find? (str "accepted") = some (.boolean true) ↔ Acceptable exec.now.node tx) ∧
        (Acceptable exec.now.node tx → after.now.node.mempool.pending.lookup tx.hash = some tx ∧
          after.now.sent = exec.now.sent ++ [announcement tx]) ∧
        (¬ Acceptable exec.now.node tx → after.now.node.mempool.pending = exec.now.node.mempool.pending ∧
          after.now.sent = exec.now.sent) := by
  obtain ⟨tx,printed,verified,sender,payee,amount,nonce,-⟩ :=
    runSignTx_prints wellFormed named saved payee some_amount now
  refine ⟨tx,printed,ext.parseJson_dump parses (canonical_toJson tx),by rw [sender,payee,amount,nonce],
    fun peerCount id exec => ?_⟩
  refine ⟨_,_,Rpc.rpcCall_submission parses peerCount id tx exec,?_,Snapshot.submit_acceptable verified,
    Snapshot.submit_unacceptable verified⟩
  rw [acceptable_iff verified]
  cases exec.now.node.mempool.checkTransaction ext exec.now.node.state tx with
  | ok taken => exact iff_of_true rfl rfl
  | error text => exact iff_of_false (by rintro ⟨⟩) (by rintro ⟨⟩)

namespace Reference

def keyMachine : Machine := ⟨fun _ => some (toHex validatorKeys.privateKey.val ++ [10]),fun _ => true,[]⟩

def payArgs : CliArgs := { keyFile := str "auth0.key",toAddress := toHex observerAddress.val,amount := 3 }

end Reference

open Reference in
theorem signed_payment_validator : ∃ tx : Transaction,
    runSignTx libraries payArgs 1 keyMachine = (.ok (0,libraries.dump tx.toJson ++ [10]),keyMachine) ∧
    tx.recipient = observerAddress := by
  obtain ⟨tx,printed,-,fields,-⟩ := signed_payment libraries libraries_parse validatorKeys validatorKeys_wellFormed
    keyMachine payArgs (by decide) rfl observerAddress rfl (by decide) 1
  exact ⟨tx,printed,congrArg (fun fields => fields.2.1) fields⟩

end TitanCore
