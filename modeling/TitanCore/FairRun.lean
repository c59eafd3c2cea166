import TitanCore.Network
import TitanCore.NodeCatchUp
import TitanCore.PoolCleanup

/-! Runs without an end in which all nodes stay up and messages arrive in the end, and what a node
that nothing disturbs does in one step of such a run. -/
namespace TitanCore

section sections
variable {ext : Externals} {config : Config} {consensus : Option PoAConsensus} {chain : List Block}
  {outbox sent : List Send} {orders : Nat → IterationOrder}

/-- The chain of a node, what it checks blocks against, and what it has said or is about to say. -/
structure Poised (consensus : Option PoAConsensus) (chain : List Block) (outbox sent : List Send)
    (now : Snapshot) : Prop where
  consensus : now.node.blockchain.consensus = consensus
  chain : now.node.blockchain.chain = chain
  outbox : now.outbox = outbox
  sent : now.sent = sent

theorem Poised.acceptance (orders : Nat → IterationOrder) (block : Block) :
    Acceptance ext Undisturbed orders block Never (Poised consensus chain outbox sent)
      (Poised consensus (chain ++ [block]) outbox sent) (Poised consensus (chain ++ [block]) outbox sent)
      (Poised consensus (chain ++ [block]) outbox sent) (Poised consensus (chain ++ [block]) outbox sent)
      (Poised consensus (chain ++ [block]) outbox sent) (Poised consensus (chain ++ [block]) outbox sent) where
  refuse := fun now poised refused => ⟨(Blockchain.addBlock_consensus ext _ _).trans poised.consensus,
    (Blockchain.addBlock_refused ext _ _ refused).trans poised.chain,poised.outbox,poised.sent⟩
  append := fun now poised accepted => by
    refine ⟨(Blockchain.addBlock_consensus ext _ _).trans poised.consensus,?_,poised.outbox,poised.sent⟩
    rw [← poised.chain]
    exact (Blockchain.addBlock_accepted ext _ _ accepted).2
  apply := fun _ poised => ⟨poised.consensus,poised.chain,poised.outbox,poised.sent⟩
  clean := fun _ poised => ⟨poised.consensus,poised.chain,poised.outbox,poised.sent⟩
  save := fun _ _ _ _ poised _ _ => ⟨poised.consensus,poised.chain,poised.outbox,poised.sent⟩
  count := fun _ _ _ _ poised _ _ => ⟨poised.consensus,poised.chain,poised.outbox,poised.sent⟩
  account := fun _ _ _ _ _ _ poised _ _ => ⟨poised.consensus,poised.chain,poised.outbox,poised.sent⟩
  complete := fun _ _ poised _ => ⟨poised.consensus,poised.chain,poised.outbox,poised.sent⟩
  memory := fun _ poised _ => ⟨poised.consensus,poised.chain,poised.outbox,poised.sent⟩
  crash := fun possible => by cases possible
  fail := fun _ possible => by cases possible

/-- A node that produces adds a block of its own from its pool and is about to announce it, or
nothing at all. -/
theorem produceBlock_either {start : Snapshot} (sound : Sound ext config start.node)
    (keys : config.nodeKeys.WellFormed ext) (orders : Nat → IterationOrder) (clock : UInt64) :
    Spec Undisturbed (fun now => now = start) (produceBlock ext orders clock)
      (fun deferred now =>
        deferred = none ∧ Poised start.node.blockchain.consensus start.node.blockchain.chain start.outbox start.sent now ∨
        ∃ block, deferred = some ⟨.others none,.newBlock,block.toJson⟩ ∧
          block.validatorPublicKey = config.nodeKeys.publicKey ∧
          block.transactions ⊆ start.node.mempool.transactions ∧
          Poised start.node.blockchain.consensus (start.node.blockchain.chain ++ [block]) start.outbox start.sent now)
      Never := by
  refine Spec.getNode_bind fun held exec begun => ?_
  obtain rfl : start.node = held := by rw [← begun.2.2,begun.2.1]
  refine Spec.ite (fun _ => Spec.pure fun now same => .inl ⟨rfl,by rw [same.1]; exact ⟨rfl,rfl,rfl,rfl⟩⟩)
    (fun _ => ?_) exec begun
  refine Spec.through (fun (block : Block) (now : Snapshot) => now = start ∧ block.validatorPublicKey = config.nodeKeys.publicKey ∧
      block.transactions ⊆ start.node.mempool.transactions)
    (Spec.lift (fun block made now same => ⟨same.1,?_⟩) fun e error => ?_) fun block => ?_
  · obtain ⟨_,_,rfl⟩ := signBlock_ok ext made
    rw [← sound.configured.nodeKeys]
    exact ⟨rfl,fun tx chosen => Mempool.mem_getTransactionsForBlock chosen⟩
  · obtain ⟨signature,signed,-⟩ := signBlock_wellFormed ext keys
      ⟨start.node.blockchain.getLatestBlock.index + 1,clock,start.node.blockchain.getLatestBlock.hash,
        deriveAddress ext config.nodeKeys.publicKey,config.nodeKeys.publicKey,
        start.node.mempool.getTransactionsForBlock (orders start.node.blockchain.chain.length) 100,[],zeroHash⟩
    rw [sound.configured.nodeKeys] at error
    exact absurd (error.symm.trans signed) (by simp)
  intro exec begun
  obtain ⟨same,key,drawn⟩ := begun.2
  refine Spec.bind (Poised.acceptance orders block).acceptBlock_spec (fun accepted => Spec.ite
    (fun yes => Spec.pure fun now outcome => .inr ⟨block,rfl,key,drawn,?_⟩)
    fun no => Spec.pure fun now outcome => .inl ⟨rfl,?_⟩) exec ⟨begun.1,by rw [same]; exact ⟨rfl,rfl,rfl,rfl⟩⟩
  · rwa [if_pos yes] at outcome
  · rwa [if_neg no] at outcome

theorem Process.step_produces {now : Snapshot} (sound : Sound ext config now.node)
    (keys : config.nodeKeys.WellFormed ext) (orders : Nat → IterationOrder) (clock : UInt64) :
    ∃ later, (Process.up now).step ext config (.produceBlock clock orders []) = .up later ∧
      (Poised now.node.blockchain.consensus now.node.blockchain.chain now.outbox now.sent later ∨
      ∃ block, block.validatorPublicKey = config.nodeKeys.publicKey ∧
        block.transactions ⊆ now.node.mempool.transactions ∧
        Poised now.node.blockchain.consensus (now.node.blockchain.chain ++ [block])
          (now.outbox ++ [⟨.others none,.newBlock,block.toJson⟩]) now.sent later) := by
  obtain ⟨deferred,after,ran,outcome⟩ := (produceBlock_either sound keys orders clock).returns now rfl
    (List.forall_mem_nil _)
  change ∃ later, finish (produceBlock ext orders clock ⟨now,[]⟩) = .up later ∧ _
  rw [ran]
  refine ⟨_,rfl,?_⟩
  rcases outcome with ⟨rfl,poised⟩ | ⟨block,rfl,key,drawn,poised⟩
  · rw [Snapshot.queue_none]
    exact .inl poised
  · refine .inr ⟨block,key,drawn,poised.consensus,poised.chain,?_,poised.sent⟩
    rw [Snapshot.queue,poised.outbox]
    rfl

/-- The next block is taken from a peer and passed on. -/
theorem Process.step_takes (config : Config) (parses : ext.ParseUndoesDump) {now : Snapshot} {block : Block}
    (valid : Blockchain.Extends ext now.node.blockchain.consensus now.node.blockchain.chain block)
    (fits : Fits ext ⟨.newBlock,block.toJson⟩) (fromPeer : Nat) (orders : Nat → IterationOrder) :
    ∃ later, (Process.up now).step ext config
        (.receive (messageBody ext ⟨.newBlock,block.toJson⟩) fromPeer orders []) = .up later ∧
      Poised now.node.blockchain.consensus (now.node.blockchain.chain ++ [block])
        (now.outbox ++ [⟨.others (some fromPeer),.newBlock,block.toJson⟩]) now.sent later := by
  have accepts : Spec Undisturbed
      (Poised now.node.blockchain.consensus now.node.blockchain.chain now.outbox now.sent) (acceptBlock ext orders block)
      (fun accepted later => accepted = true ∧ Poised now.node.blockchain.consensus
        (now.node.blockchain.chain ++ [block]) now.outbox now.sent later) Never :=
    (Poised.acceptance orders block).accepts fun later poised => by
      apply Blockchain.addBlock_of_extends
      rwa [poised.consensus,poised.chain]
  obtain ⟨deferred,after,ran,rfl,poised⟩ := (onNewBlock_accepts accepts (fun later poised => by
    apply UInt64.toNat.inj
    rw [Blockchain.getHeight_toNat,poised.chain,valid.index]) fromPeer).returns now ⟨rfl,rfl,rfl,rfl⟩
      (List.forall_mem_nil _)
  rw [Process.step_receive ext config parses _ _ block.canonical_toJson rfl fits]
  change ∃ later, finish (onNewBlock ext orders block.toJson fromPeer ⟨now,[]⟩) = .up later ∧ _
  rw [ran]
  refine ⟨_,rfl,poised.consensus,poised.chain,?_,poised.sent⟩
  rw [Snapshot.queue,poised.outbox]
  rfl

theorem empty_fits (ext : Externals) : Fits ext ⟨.blocks,blocksPayload []⟩ := by
  have none_there : elementsSize ext [] = 0 := rfl
  refine (blocks_fit_iff ext []).mpr ?_
  rw [none_there]
  decide

theorem Process.step_nothing (parses : ext.ParseUndoesDump) (now : Snapshot) (fromPeer : Nat)
    (orders : Nat → IterationOrder) : (Process.up now).step ext config
      (.receive (messageBody ext ⟨.blocks,blocksPayload []⟩) fromPeer orders []) = .up now := by
  rw [Process.step_receive ext config parses _ ⟨.blocks,blocksPayload []⟩ rfl rfl (empty_fits ext)]
  exact Process.finish_silent _ _

def PendingIn (known : List Transaction) (now : Snapshot) : Prop := now.node.mempool.transactions ⊆ known

theorem PendingIn.enduring (known : List Transaction) : Process.Enduring ext (fun _ => True)
    (fun msg => msg.type ≠ .newTx) (PendingIn known) fun _ _ _ _ => True where
  kill := fun _ _ => trivial
  broadcast := fun _ _ _ holds _ => holds
  announcing := {
    interrupt := fun _ _ holds => holds
    blame := fun _ _ holds => holds
    reply := fun _ _ _ holds _ _ => holds
    admission := fun _ _ _ _ heard => absurd rfl heard
    accept := fun orders msg block _ _ => by
      refine ⟨PendingIn known,PendingIn known,PendingIn known,PendingIn known,PendingIn known,PendingIn known,?_,
        fun _ holds => holds,fun _ _ _ holds => holds⟩
      exact {
        refuse := fun _ holds _ => holds
        append := fun _ holds _ => holds
        apply := fun _ holds => holds
        clean := fun now holds tx member => by
          -- what is put back was taken out just before
          rcases Mempool.mem_addTransactions member with impossible | fed
          · exact absurd impossible List.not_mem_nil
          · exact holds (Mempool.mem_removeMined ((Mempool.sorted_perm _ _).mem_iff.mp fed))
        save := fun _ _ _ _ holds _ _ => holds
        count := fun _ _ _ _ holds _ _ => holds
        account := fun _ _ _ _ _ _ holds _ _ _ => holds
        complete := fun _ _ holds _ _ => holds
        memory := fun _ holds _ => holds
        crash := fun _ _ _ => trivial
        fail := fun _ _ _ _ stages => by rcases stages with holds | holds | holds <;> exact holds } }

/-- What no message brings does not become pending. -/
theorem Process.step_pool {action : Action} (stepped : (Process.up now).step ext config action = .up later)
    (noBoot : action.boots = false) (hears : ∀ msg, action.Hears ext msg → msg.type ≠ .newTx) :
    later.node.mempool.transactions ⊆ now.node.mempool.transactions := by
  have start : Process.Holds (PendingIn now.node.mempool.transactions) (fun _ _ _ _ => True) (.up now) :=
    List.Subset.refl _
  have holds : Process.Holds (PendingIn now.node.mempool.transactions) (fun _ _ _ _ => True)
      ((Process.up now).step ext config action) :=
    (PendingIn.enduring _).step_holds action (fun _ _ => trivial) noBoot hears start
  rw [stepped] at holds
  exact holds

end sections

def Recipient.Includes (recipient : Recipient) (peer : Nat) : Prop :=
  match recipient with
  | .peer id => peer = id
  | .others exclude => some peer ≠ exclude

section network
variable {ι : Type}

/-- A run without an end in which all nodes stay up and all writes succeed, from a state that they
reached in any way. -/
structure Run [DecidableEq ι] (ext : Externals) (config : ι → Config) where
  now : Nat → ι → Snapshot
  actor : Nat → ι
  action : Nat → Action
  start : Reachable ext config fun i => .up (now 0 i)
  possible : ∀ t, Possible ext config (fun i => .up (now t i)) (actor t) (action t)
  undisturbed : ∀ t, ∀ fate ∈ (action t).fates, Undisturbed fate
  acts : ∀ t, (Process.up (now t (actor t))).step ext (config (actor t)) (action t) = .up (now (t + 1) (actor t))
  others : ∀ t i, i ≠ actor t → now (t + 1) i = now t i

namespace Run
variable [DecidableEq ι] {ext : Externals} {config : ι → Config}

def world (run : Run ext config) (t : Nat) : ι → Process := fun i => .up (run.now t i)

def chain (run : Run ext config) (i : ι) (t : Nat) : List Block := (run.now t i).node.blockchain.chain

def handed (run : Run ext config) (t : Nat) : List Send :=
  (run.now (t + 1) (run.actor t)).sent.drop (run.now t (run.actor t)).sent.length

/-- `i` has got its session with `j`, which it knows by the number `number i j`. -/
def Connected (run : Run ext config) (number : ι → ι → Nat) (t : Nat) (i j : ι) : Prop :=
  ∃ s ≤ t, run.actor s = i ∧ run.action s = .peerConnected (number i j)

/-- Nodes keep trying to produce, all connect to each other, broadcasts that were prepared are
made, and what is handed to a session arrives at its other end unless it is too long. -/
structure Fair (run : Run ext config) (number : ι → ι → Nat) : Prop where
  producing : ∀ t i, ∃ t' ≥ t, run.actor t' = i ∧ ∃ clock orders fates,
    run.action t' = .produceBlock clock orders fates
  connecting : ∀ i j, i ≠ j → ∃ t, run.actor t = i ∧ run.action t = .peerConnected (number i j)
  broadcasting : ∀ t i, ∀ send ∈ (run.now t i).outbox, ∃ t' ≥ t, run.actor t' = i ∧ ∃ position,
    run.action t' = .broadcast position ∧ (run.now t' i).outbox[position]? = some send
  delivering : ∀ t j, j ≠ run.actor t → run.Connected number t (run.actor t) j → ∀ send ∈ run.handed t,
    send.recipient.Includes (number (run.actor t) j) → Fits ext send.message →
    ∃ t' > t, run.actor t' = j ∧ run.Connected number t' j (run.actor t) ∧ ∃ orders fates,
      run.action t' = .receive (messageBody ext send.message) (number j (run.actor t)) orders fates

/-- Two headers have one hash, or a node handed out a message above the limit. -/
def Spoiled (run : Run ext config) (t : Nat) : Prop :=
  ¬ CollisionFree ext (run.world t) ∨ ∃ i, ∃ send ∈ (run.now t i).sent, ¬ Fits ext send.message

theorem reachable (run : Run ext config) (t : Nat) : Reachable ext config (run.world t) := by
  induction t with
  | zero => exact run.start
  | succ t ih =>
    have stepped := Reachable.step ih (run.actor t) (run.action t) (run.possible t)
    have same : Function.update (run.world t) (run.actor t)
        ((run.world t (run.actor t)).step ext (config (run.actor t)) (run.action t)) = run.world (t + 1) := by
      funext i
      by_cases acting : i = run.actor t
      · subst acting
        rw [Function.update_self]
        exact run.acts t
      · rw [Function.update_of_ne acting,world,world,run.others t i acting]
    rwa [same] at stepped

end Run
end network

end TitanCore
