import TitanCore.MempoolAgreement
import TitanCore.NodeAgreement
import TitanCore.WaitingLine

/-! Transactions spread to a peer. A call is accepted in one step and broadcast in a later one,
so several calls may be broadcast in another order than they were accepted. -/
namespace TitanCore
open WaitingLine (Line Move AllInTurn)

/-- The two steps of a call of `submitTransaction`: the locked one, and the broadcast, which is
one of those that wait. -/
inductive CallStep where
  | submit (tx : Transaction)
  | broadcast (position : Nat)

def announcement (tx : Transaction) : Send := ⟨.others none,.newTx,tx.toJson⟩

def Send.transaction? (send : Send) : Option Transaction :=
  (transactionFromJson send.message.payload).toOption

def Snapshot.waiting (now : Snapshot) : List Transaction := now.outbox.filterMap Send.transaction?

namespace CallStep

def action : CallStep → Action
  | .submit tx => .submitTransaction tx
  | .broadcast position => .broadcast position

/-- A broadcast is in turn when none of an earlier transaction of its sender waits. -/
def InTurn (now : Snapshot) : CallStep → Prop
  | .submit _ => True
  | .broadcast position => ∀ tx, now.waiting[position]? = some tx →
    ∀ ahead ∈ now.waiting.take position, ahead.sender ≠ tx.sender

end CallStep

section submitting
variable {ext : Externals} {now : Snapshot} {tx : Transaction}

theorem submitTransaction_run (fates : List Fate) : submitTransaction ext tx ⟨now,fates⟩ =
    if (now.node.mempool.addTransaction ext now.node.state tx).1 then
      (.ok (some (announcement tx)),⟨now.onNode (Node.addTransaction ext tx),fates⟩)
    else (.ok none,⟨(now.onNode (Node.addTransaction ext tx)).onNode
      fun node => { node with lastError := node.mempool.lastError },fates⟩) := by
  have ran : submitTransaction ext tx ⟨now,fates⟩ =
      (if (now.node.mempool.addTransaction ext now.node.state tx).1 then
        pure (some (announcement tx)) else (do
          setNode fun node => { node with lastError := node.mempool.lastError }
          return none) : NodeM _) ⟨now.onNode (Node.addTransaction ext tx),fates⟩ := rfl
  rw [ran]
  split <;> rfl

theorem step_submit_accepted (config : Config)
    (accepted : (now.node.mempool.addTransaction ext now.node.state tx).1 = true) :
    (Process.up now).step ext config (.submitTransaction tx) =
      .up ((now.onNode (Node.addTransaction ext tx)).queue (some (announcement tx))) := by
  change Process.finish (submitTransaction ext tx ⟨now,[]⟩) = _
  rw [submitTransaction_run,if_pos accepted]
  rfl

theorem step_submit_refused (config : Config)
    (refused : (now.node.mempool.addTransaction ext now.node.state tx).1 = false) :
    (Process.up now).step ext config (.submitTransaction tx) =
      .up ((now.onNode (Node.addTransaction ext tx)).onNode
        fun node => { node with lastError := node.mempool.lastError }) := by
  change Process.finish (submitTransaction ext tx ⟨now,[]⟩) = _
  rw [submitTransaction_run,if_neg (by simp [refused])]
  exact Process.finish_silent _ _

end submitting

def InOrder (ext : Externals) (config : Config) : Process → List CallStep → Prop
  | _,[] => True
  | process,call :: rest => (∀ now, process = .up now → call.InTurn now) ∧
    InOrder ext config (process.step ext config call.action) rest

/-- Where the calls stand: what was accepted since the start joined a line, and leaves it when it
is broadcast. -/
structure Gossips (ext : Externals) (start now : Snapshot) (line : Line Transaction) : Prop where
  state : now.node.state = start.node.state
  pool : now.node.mempool.quiet =
    (start.node.mempool.addTransactions ext start.node.state line.joined).quiet
  takes : start.node.mempool.TakesAll ext start.node.state line.joined
  outbox : now.outbox = line.waiting.map announcement
  sent : now.sent = start.sent ++ line.gone.map announcement

section calls
variable {ext : Externals} {start now : Snapshot} {line : Line Transaction}

theorem Gossips.idle (idle : start.outbox = []) : Gossips ext start start .start :=
  ⟨rfl,rfl,trivial,idle,(List.append_nil _).symm⟩

@[simp] theorem transaction?_announcement (tx : Transaction) :
    (announcement tx).transaction? = some tx := by
  rw [Send.transaction?,announcement,transactionFromJson_toJson]
  rfl

theorem Gossips.waiting (gossips : Gossips ext start now line) : now.waiting = line.waiting := by
  rw [Snapshot.waiting,gossips.outbox,List.filterMap_map]
  exact (List.filterMap_congr fun tx _ => transaction?_announcement tx).trans List.filterMap_some

/-- A step of a call moves the line on, and is in turn when the move is. -/
theorem Gossips.step (gossips : Gossips ext start now line) (config : Config) (call : CallStep) :
    ∃ after move, (Process.up now).step ext config call.action = .up after ∧
      Gossips ext start after (line.move move) ∧
      (call.InTurn now ↔ WaitingLine.InTurn Transaction.sender line.waiting move) := by
  cases call with
  | submit tx =>
    have decided : (now.node.mempool.addTransaction ext now.node.state tx).1 = _ ∧ _ :=
      Mempool.quiet_addTransaction (gossips.pool)
    rw [gossips.state] at decided
    rcases Mempool.addTransaction_cases ext (start.node.mempool.addTransactions ext start.node.state line.joined)
      start.node.state tx with ⟨yes,admissible,-⟩ | ⟨no,-,text,unchanged⟩
    · have accepted : (now.node.mempool.addTransaction ext now.node.state tx).1 = true := by
        rw [gossips.state,decided.1,yes]
      refine ⟨_,.join tx,step_submit_accepted config accepted,?_,Iff.rfl⟩
      refine ⟨gossips.state,?_,gossips.takes.concat admissible,?_,gossips.sent⟩
      · change (now.node.mempool.addTransaction ext now.node.state tx).2.quiet = _
        rw [gossips.state,decided.2]
        exact congrArg Mempool.quiet (Mempool.addTransactions_concat _ line.joined tx).symm
      · change now.outbox ++ [announcement tx] = _
        rw [gossips.outbox,Line.move,List.map_append]
        rfl
    · have refused : (now.node.mempool.addTransaction ext now.node.state tx).1 = false := by
        rw [gossips.state,decided.1,no]
      refine ⟨_,.turnAway,step_submit_refused config refused,?_,Iff.rfl⟩
      refine ⟨gossips.state,?_,gossips.takes,gossips.outbox,gossips.sent⟩
      change (now.node.mempool.addTransaction ext now.node.state tx).2.quiet = _
      rw [gossips.state,decided.2,unchanged]
      rfl
  | broadcast position =>
    refine ⟨now.broadcast position,.leave position,rfl,?_,?_⟩
    · cases found : line.waiting[position]? with
      | none =>
        have absent : now.outbox[position]? = none := by
          rw [gossips.outbox,List.getElem?_map,found]
          rfl
        rw [WaitingLine.move_leave_none found,Snapshot.broadcast,absent]
        exact gossips
      | some tx =>
        have present : now.outbox[position]? = some (announcement tx) := by
          rw [gossips.outbox,List.getElem?_map,found]
          rfl
        rw [Line.move,found,Snapshot.broadcast,present]
        refine ⟨gossips.state,gossips.pool,gossips.takes,?_,?_⟩
        · change now.outbox.eraseIdx position = _
          rw [gossips.outbox,List.eraseIdx_map]
        · change now.sent ++ [announcement tx] = _
          rw [gossips.sent,List.append_assoc,List.map_append]
          rfl
    · rw [CallStep.InTurn,gossips.waiting]
      rfl

theorem Gossips.run (gossips : Gossips ext start now line) (config : Config) (calls : List CallStep) :
    ∃ after moves, (calls.map CallStep.action).foldl (Process.step ext config) (.up now) = .up after ∧
      Gossips ext start after (line.run moves) ∧ moves.length = calls.length ∧
      (InOrder ext config (.up now) calls ↔ AllInTurn Transaction.sender line moves) := by
  induction calls generalizing now line with
  | nil => exact ⟨now,[],rfl,gossips,rfl,Iff.rfl⟩
  | cons call rest ih =>
    obtain ⟨middle,move,stepped,gossips,turn⟩ := gossips.step config call
    obtain ⟨after,moves,ran,gossips,length,order⟩ := ih gossips
    refine ⟨after,move :: moves,by rw [List.map_cons,List.foldl_cons,stepped,ran],gossips,
      by rw [List.length_cons,length]; rfl,?_⟩
    rw [InOrder,stepped,AllInTurn,← turn,← order]
    constructor
    · exact fun ordered => ⟨ordered.1 now rfl,ordered.2⟩
    · rintro ⟨turn,later⟩
      refine ⟨?_,later⟩
      rintro _ ⟨⟩
      exact turn

end calls

section hearing
variable {ext : Externals} {now : Snapshot} {tx : Transaction}

theorem onNewTx_run (fromPeer : Nat) (fates : List Fate) : onNewTx ext tx.toJson fromPeer ⟨now,fates⟩ =
    if now.node.mempool.contains tx.hash then (.ok none,⟨now,fates⟩)
    else if (now.node.mempool.addTransaction ext now.node.state tx).1 then
      (.ok (some ⟨.others (some fromPeer),.newTx,tx.toJson⟩),
        ⟨now.onNode (Node.addTransaction ext tx),fates⟩)
    else (.ok none,⟨now.onNode (Node.addTransaction ext tx),fates⟩) := by
  have ran : onNewTx ext tx.toJson fromPeer ⟨now,fates⟩ =
      (if now.node.mempool.contains tx.hash then return none
      else do
        let accepted ← admitTransaction ext tx
        if accepted then return some ⟨.others (some fromPeer),.newTx,tx.toJson⟩
        else return none : NodeM _) ⟨now,fates⟩ := by
    unfold onNewTx
    rw [transactionFromJson_toJson]
    rfl
  rw [ran]
  split
  · rfl
  · change (if (now.node.mempool.addTransaction ext now.node.state tx).1 then
      pure (some (Send.mk (.others (some fromPeer)) ⟨.newTx,tx.toJson⟩)) else return none : NodeM _)
        ⟨now.onNode (Node.addTransaction ext tx),fates⟩ = _
    split <;> rfl

/-- A transaction that arrives is offered to the pool; a known one would be refused anyway. -/
theorem step_hear (now : Snapshot) (config : Config) (parses : ext.ParseUndoesDump)
    (verified : verifyTransaction ext tx = true) (fromPeer : Nat) (orders : Nat → IterationOrder) :
    ∃ after, (Process.up now).step ext config
        (.receive (messageBody ext (announcement tx).message) fromPeer orders []) = .up after ∧
      after.node.state = now.node.state ∧
      after.node.mempool.quiet = (now.node.mempool.addTransaction ext now.node.state tx).2.quiet := by
  rw [Process.step_receive ext config parses _ (announcement tx).message (canonical_toJson tx) rfl
    (Ordinary.fits ext (.transaction verified))]
  change ∃ after, Process.finish (onNewTx ext tx.toJson fromPeer ⟨now,[]⟩) = _ ∧ _
  rw [onNewTx_run]
  by_cases known : now.node.mempool.contains tx.hash = true
  · rw [if_pos known]
    refine ⟨now,Process.finish_silent _ _,rfl,?_⟩
    rcases Mempool.addTransaction_cases ext now.node.mempool now.node.state tx with
      ⟨-,admissible,-⟩ | ⟨-,-,text,unchanged⟩
    · rw [Mempool.contains,admissible.fresh] at known
      cases known
    · rw [unchanged]
      rfl
  · rw [if_neg known]
    by_cases accepted : (now.node.mempool.addTransaction ext now.node.state tx).1 = true
    · rw [if_pos accepted]
      exact ⟨_,rfl,rfl,rfl⟩
    · rw [if_neg accepted]
      exact ⟨_,Process.finish_silent _ _,rfl,rfl⟩

theorem run_hear (now : Snapshot) (config : Config) (parses : ext.ParseUndoesDump) (fromPeer : Nat)
    (orders : Nat → IterationOrder) {transactions : List Transaction}
    (verified : ∀ tx ∈ transactions, verifyTransaction ext tx = true) :
    ∃ after, ((transactions.map announcement).map fun send =>
          Action.receive (messageBody ext send.message) fromPeer orders []).foldl
        (Process.step ext config) (.up now) = .up after ∧
      after.node.mempool.quiet =
        (now.node.mempool.addTransactions ext now.node.state transactions).quiet := by
  induction transactions generalizing now with
  | nil => exact ⟨now,rfl,rfl⟩
  | cons tx rest ih =>
    obtain ⟨good,verified⟩ := List.forall_mem_cons.mp verified
    obtain ⟨middle,stepped,state,pool⟩ := step_hear now config parses good fromPeer orders
    obtain ⟨after,ran,whole⟩ := @ih middle verified
    refine ⟨after,?_,?_⟩
    · rw [List.map_cons,List.map_cons,List.foldl_cons,stepped]
      exact ran
    · rw [whole,state]
      exact Mempool.quiet_addTransactions pool rest

end hearing

/-- Nodes A and B with one chain, one ledger and no pending transactions, the calls on A, and how
B gets A's messages. -/
structure Gossip (ext : Externals) (configA configB : Config) where
  startA : List Action
  startB : List Action
  calls : List CallStep
  peer : Nat
  orders : Nat → IterationOrder
  a : Snapshot
  b : Snapshot
  called : Snapshot
  reachedA : Process.run ext configA startA = .up a
  reachedB : Process.run ext configB startB = .up b
  chain : b.node.blockchain.chain = a.node.blockchain.chain
  ledger : b.node.state.accounts = a.node.state.accounts
  emptyA : a.node.mempool.transactions = []
  emptyB : b.node.mempool.transactions = []
  idle : a.outbox = []
  calling : Process.run ext configA (startA ++ calls.map CallStep.action) = .up called
  finished : called.outbox = []

namespace Gossip
variable {ext : Externals} {configA configB : Config}

def deliveries (gossip : Gossip ext configA configB) : List Action :=
  (gossip.called.sent.drop gossip.a.sent.length).map fun send =>
    .receive (messageBody ext send.message) gossip.peer gossip.orders []

def Agree (gossip : Gossip ext configA configB) : Prop :=
  ∃ b, Process.run ext configB (gossip.startB ++ gossip.deliveries) = .up b ∧
    ∀ hash, b.node.mempool.pending.lookup hash = gossip.called.node.mempool.pending.lookup hash

/-- The calls leave a line that everybody left; B is fed those who left, in that order. -/
theorem agree_iff_nonces (parses : ext.ParseUndoesDump) (gossip : Gossip ext configA configB)
    {line : Line Transaction} (balanced : WaitingLine.Balanced line) (nobody : line.waiting = [])
    (gossips : Gossips ext gossip.a gossip.called line) :
    gossip.Agree ↔ ∀ address, (StateManager.sentBy address line.gone).map Transaction.nonce =
      (StateManager.sentBy address line.joined).map Transaction.nonce := by
  have soundA : Sound ext configA gossip.a.node := .of_run (by rw [gossip.reachedA]; rfl)
  have soundB : Sound ext configB gossip.b.node := .of_run (by rw [gossip.reachedB]; rfl)
  have same : line.gone.Perm line.joined := by
    rw [WaitingLine.Balanced,nobody,List.append_nil] at balanced
    exact balanced.symm
  have sent : gossip.called.sent.drop gossip.a.sent.length = line.gone.map announcement := by
    rw [gossips.sent,List.drop_left]
  have verified : ∀ tx ∈ line.gone, verifyTransaction ext tx = true := fun tx member =>
    gossips.takes.verified soundA.pool gossip.emptyA (same.mem_iff.mp member)
  obtain ⟨heard,ran,pool⟩ := run_hear gossip.b configB parses gossip.peer gossip.orders verified
  have reached : Process.run ext configB (gossip.startB ++ gossip.deliveries) = .up heard := by
    rw [Process.run,List.foldl_append,deliveries,sent,← ran]
    exact congrArg (List.foldl _ · _) gossip.reachedB
  rw [← gossips.takes.fed_agree_iff soundA.pool gossip.emptyA gossip.ledger soundB.pool
    gossip.emptyB same]
  have there := Mempool.quiet_pending pool
  have here := Mempool.quiet_pending gossips.pool
  constructor
  · rintro ⟨b,reached',agree⟩
    obtain rfl := Process.up.inj (reached.symm.trans reached')
    rw [there,here] at agree
    exact agree
  · intro agree
    refine ⟨heard,reached,?_⟩
    rw [there,here]
    exact agree

/-- Where the calls end: everybody left the line. -/
theorem line (gossip : Gossip ext configA configB) : ∃ moves,
    Gossips ext gossip.a gossip.called (Line.start.run moves) ∧
    (Line.start.run moves : Line Transaction).waiting = [] ∧ moves.length = gossip.calls.length ∧
    (InOrder ext configA (.up gossip.a) gossip.calls ↔ AllInTurn Transaction.sender .start moves) := by
  have idle : Gossips ext gossip.a gossip.a .start := .idle gossip.idle
  obtain ⟨after,moves,ran,gossips,length,order⟩ := idle.run configA gossip.calls
  have called : gossip.called = after := by
    have calling := gossip.calling
    rw [Process.run,List.foldl_append] at calling
    exact Process.up.inj (calling.symm.trans ((congrArg (List.foldl _ · _) gossip.reachedA).trans ran))
  subst called
  refine ⟨moves,gossips,?_,length,order⟩
  rw [← List.map_eq_nil_iff,← gossips.outbox]
  exact gossip.finished

theorem agree_of_inOrder (parses : ext.ParseUndoesDump) (gossip : Gossip ext configA configB)
    (inOrder : InOrder ext configA (.up gossip.a) gossip.calls) : gossip.Agree := by
  obtain ⟨moves,gossips,nobody,-,order⟩ := gossip.line
  refine (gossip.agree_iff_nonces parses (.run .start moves) nobody gossips).mpr fun address => ?_
  have ordered := (WaitingLine.Ordered.start.run (order.mp inOrder)) address
  rw [nobody] at ordered
  exact congrArg (List.map _) (ordered.trans (List.append_nil _)).symm

theorem inOrder_of_agree (parses : ext.ParseUndoesDump) (gossip : Gossip ext configA configB)
    (few : gossip.calls.length ≤ 2 ^ 64) (agree : gossip.Agree) :
    InOrder ext configA (.up gossip.a) gossip.calls := by
  have soundA : Sound ext configA gossip.a.node := .of_run (by rw [gossip.reachedA]; rfl)
  obtain ⟨moves,gossips,nobody,length,order⟩ := gossip.line
  have balanced : WaitingLine.Balanced (Line.start.run moves : Line Transaction) := .run .start moves
  have nonces := (gossip.agree_iff_nonces parses balanced nobody gossips).mp agree
  have accepted : (Line.start.run moves : Line Transaction).joined.length ≤ 2 ^ 64 := by
    have bound := WaitingLine.joined_length (Line.start : Line Transaction) moves
    rw [length] at bound
    exact bound.trans ((Nat.zero_add _).trans_le few)
  rw [WaitingLine.Balanced,nobody,List.append_nil] at balanced
  refine order.mpr (WaitingLine.allInTurn_of_order .start .start moves ?_ fun address => ?_)
  · exact .of_map _ (gossips.takes.distinct soundA.pool gossip.emptyA)
  · exact gossips.takes.sentBy_eq_of_nonces soundA.pool gossip.emptyA balanced.symm accepted
      (nonces address)

/-- The pools agree when no broadcast overtakes one of an earlier transaction of the same sender,
and otherwise they do not, unless a nonce went round. -/
theorem agree_iff (parses : ext.ParseUndoesDump) (gossip : Gossip ext configA configB) :
    (InOrder ext configA (.up gossip.a) gossip.calls → gossip.Agree) ∧
    (gossip.calls.length ≤ 2 ^ 64 → gossip.Agree →
      InOrder ext configA (.up gossip.a) gossip.calls) :=
  ⟨agree_of_inOrder parses gossip,inOrder_of_agree parses gossip⟩

end Gossip

/-- The oldest broadcast is always in turn. -/
theorem inOrder_of_oldest {ext : Externals} {config : Config} {calls : List CallStep}
    (oldest : ∀ position, .broadcast position ∈ calls → position = 0) (process : Process) :
    InOrder ext config process calls := by
  induction calls generalizing process with
  | nil => trivial
  | cons call rest ih =>
    refine ⟨fun now _ => ?_,ih (fun position member => oldest position (List.mem_cons_of_mem _ member)) _⟩
    cases call with
    | submit tx => trivial
    | broadcast position =>
      obtain rfl := oldest position List.mem_cons_self
      intro tx _ ahead member
      cases member

def Process.now? : Process → Option Snapshot
  | .up now => some now
  | .down _ _ _ _ => none

theorem Process.up_of_now {process : Process} {holds : Snapshot → Bool}
    (running : process.now?.any holds = true) : ∃ now, process = .up now ∧ holds now = true := by
  cases process with
  | up now => exact ⟨now,rfl,running⟩
  | down => cases running

namespace Reference

abbrev Calls := Gossip libraries (config validatorKeys funded false) (config observerKeys funded false)

theorem gossip_of (calls : List CallStep)
    (finished : (Process.run libraries (config validatorKeys funded false)
      ([.boot []] ++ calls.map CallStep.action)).now?.any (fun now => now.outbox.isEmpty) = true) :
    ∃ gossip : Calls, gossip.startA = [.boot []] ∧ gossip.calls = calls := by
  have runA : (Process.run libraries (config validatorKeys funded false) [.boot []]).now?.any
      (fun now => now.node.blockchain.chain = [genesis] ∧ now.node.mempool.transactions = [] ∧
        now.outbox.isEmpty) = true := by decide +kernel
  have runB : (Process.run libraries (config observerKeys funded false) [.boot []]).now?.any
      (fun now => now.node.blockchain.chain = [genesis] ∧ now.node.mempool.transactions = []) = true := by
    decide +kernel
  obtain ⟨a,upA,factsA⟩ := Process.up_of_now runA
  obtain ⟨b,upB,factsB⟩ := Process.up_of_now runB
  obtain ⟨called,upCalled,done⟩ := Process.up_of_now finished
  obtain ⟨chainA,emptyA,idle⟩ := of_decide_eq_true factsA
  obtain ⟨chainB,emptyB⟩ := of_decide_eq_true factsB
  have soundA : Sound libraries _ a.node := .of_run (by rw [upA]; rfl)
  have soundB : Sound libraries _ b.node := .of_run (by rw [upB]; rfl)
  refine ⟨{
    startA := [.boot []]
    startB := [.boot []]
    calls,a,b,called
    peer := 0
    orders := arrival
    reachedA := upA
    reachedB := upB
    chain := chainB.trans chainA.symm
    ledger := by rw [soundA.ledger,soundB.ledger,chainA,chainB]; rfl
    emptyA,emptyB
    idle := List.isEmpty_iff.mp idle
    calling := upCalled
    finished := List.isEmpty_iff.mp done },rfl,rfl⟩

end Reference

open Reference in
theorem Gossip.agree_iff_oldest : ∃ gossip : Calls, gossip.calls =
    [.submit payment,.submit secondPayment,.broadcast 0,.broadcast 0] ∧ gossip.Agree := by
  obtain ⟨gossip,-,calls⟩ := gossip_of
    [.submit payment,.submit secondPayment,.broadcast 0,.broadcast 0] (by decide +kernel)
  refine ⟨gossip,calls,(agree_iff libraries_parse gossip).1 (inOrder_of_oldest ?_ _)⟩
  rw [calls]
  simp

open Reference in
/-- Two payments of one sender, broadcast in the other order: the second is lost. -/
theorem Gossip.overtaken : ¬ ∀ gossip : Calls, gossip.Agree := by
  intro always
  obtain ⟨gossip,start,calls⟩ := gossip_of
    [.submit payment,.submit secondPayment,.broadcast 1,.broadcast 0] (by decide +kernel)
  have accepted : (Process.run libraries (config validatorKeys funded false)
      ([.boot []] ++ [.submitTransaction payment] ++ [.submitTransaction secondPayment])).now?.any
        (fun now => now.waiting = [payment,secondPayment]) = true := by decide +kernel
  obtain ⟨now,up,facts⟩ := Process.up_of_now accepted
  rw [Process.run_concat,Process.run_concat] at up
  have waiting := of_decide_eq_true facts
  have reached := gossip.reachedA
  rw [start] at reached
  have inOrder := inOrder_of_agree libraries_parse gossip (by rw [calls]; decide) (always gossip)
  rw [calls,← reached] at inOrder
  have turn := inOrder.2.2.1 now up
  rw [CallStep.InTurn,waiting] at turn
  exact turn secondPayment rfl payment (by simp) rfl

end TitanCore
