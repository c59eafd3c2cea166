import TitanCore.NodeAgreement
import TitanCore.PoolCleanup

/-! The blocks a node takes from its peers, one call of `acceptBlock` after the other, and what
each of them drops from the pool. -/
namespace TitanCore

/-- A call of `acceptBlock`: what it started from and what it came to. -/
structure Attempt where
  block : Block
  before : Exec
  answer : Except Interrupt Bool
  after : Exec

section
variable (ext : Externals)

def attempt (orders : Nat → IterationOrder) (block : Block) (exec : Exec) : Attempt :=
  ⟨block,exec,(acceptBlock ext orders block exec).1,(acceptBlock ext orders block exec).2⟩

def syncAttempts (orders : Nat → IterationOrder) : List Json → Exec → List Attempt
  | [],_ => []
  | blockJson :: rest,exec =>
    match blockFromJson blockJson with
    | .error _ => []
    | .ok block =>
      if block.index < exec.now.node.blockchain.getHeight then syncAttempts orders rest exec
      else if block.index ≠ exec.now.node.blockchain.getHeight then []
      else
        let made := attempt ext orders block exec
        match made.answer with
        | .ok true => made :: syncAttempts orders rest made.after
        | _ => [made]

def messageAttempts (orders : Nat → IterationOrder) (msg : Message) (exec : Exec) : List Attempt :=
  match msg.type with
  | .newBlock =>
    match blockFromJson msg.payload with
    | .error _ => []
    | .ok block =>
      if block.index = exec.now.node.blockchain.getHeight then [attempt ext orders block exec] else []
  | .blocks =>
    match msg.payload.at? (str "blocks") with
    | .error _ => []
    | .ok blocksArray => syncAttempts ext orders blocksArray.elements exec
  | _ => []

def Process.attempts (process : Process) : Action → List Attempt
  | .receive body _ orders fates =>
    match process with
    | .up now =>
      if maxBodyLen < body.length then []
      else match deserializeMessage ext body with
        | .error _ => []
        | .ok msg => messageAttempts ext orders msg ⟨now,fates⟩
    | .down _ _ _ _ => []
  | _ => []

end

namespace Attempt

structure Accepts (made : Attempt) : Prop where
  chain : made.after.now.node.blockchain.chain = made.before.now.node.blockchain.chain ++ [made.block]
  alive : made.answer ≠ .error .crash

def pool (made : Attempt) : Mempool := made.before.now.node.mempool

def ledger (made : Attempt) : StateManager := made.before.now.node.state

def accepting (made : Attempt) : Bool :=
  match made.answer with
  | .ok accepted => accepted
  | .error _ => false

/-- Whatever the call took out of the pool is obsolete after it. -/
def DropsObsolete (made : Attempt) : Prop :=
  ∀ tx ∈ made.pool.transactions, tx ∉ made.after.now.node.mempool.transactions →
    Mempool.Obsolete made.after.now.node.state made.pool tx

end Attempt

structure Holding (chain : List Block) (state : StateManager) (pool : Mempool) (now : Snapshot) : Prop where
  chain : now.node.blockchain.chain = chain
  state : now.node.state = state
  pool : now.node.mempool = pool

section
variable {ext : Externals} {config : Config} {chain : List Block} {state : StateManager} {pool : Mempool}
  {orders : Nat → IterationOrder}

theorem Holding.acceptance (ext : Externals) (orders : Nat → IterationOrder) (block : Block) :
    Acceptance ext (fun _ => True) orders block
      (Process.afterwards (Holding (chain ++ [block]) (state.applyBlock block).2
        (pool.cleanup ext (orders (chain.length + 1)) state block)) fun _ _ _ _ => True)
      (Holding chain state pool) (Holding (chain ++ [block]) state pool)
      (Holding (chain ++ [block]) (state.applyBlock block).2 pool)
      (Holding (chain ++ [block]) (state.applyBlock block).2
        (pool.cleanup ext (orders (chain.length + 1)) state block))
      (Holding (chain ++ [block]) (state.applyBlock block).2
        (pool.cleanup ext (orders (chain.length + 1)) state block))
      (Holding (chain ++ [block]) (state.applyBlock block).2
        (pool.cleanup ext (orders (chain.length + 1)) state block))
      (Holding (chain ++ [block]) (state.applyBlock block).2
        (pool.cleanup ext (orders (chain.length + 1)) state block)) where
  refuse := fun _ holding refused =>
    ⟨(Blockchain.addBlock_refused ext _ _ refused).trans holding.chain,holding.state,holding.pool⟩
  append := fun _ holding accepted => by
    refine ⟨?_,holding.state,holding.pool⟩
    rw [← holding.chain]
    exact (Blockchain.addBlock_accepted ext _ _ accepted).2
  apply := fun now holding => by
    refine ⟨holding.chain,?_,holding.pool⟩
    change (now.node.state.applyBlock block).2 = _
    rw [holding.state]
  clean := fun now holding => by
    refine ⟨holding.chain,holding.state,?_⟩
    change ((now.node.mempool.removeMinedTransactions block).revalidate ext
      (orders now.node.blockchain.chain.length) now.node.state).2 = _
    rw [holding.chain,holding.state,holding.pool,List.length_append]
    rfl
  save := fun _ _ _ _ holding _ _ => ⟨holding.chain,holding.state,holding.pool⟩
  count := fun _ _ _ _ holding _ _ => ⟨holding.chain,holding.state,holding.pool⟩
  account := fun _ _ _ _ _ _ holding _ _ => ⟨holding.chain,holding.state,holding.pool⟩
  complete := fun _ _ holding _ => ⟨holding.chain,holding.state,holding.pool⟩
  memory := fun _ holding _ => ⟨holding.chain,holding.state,holding.pool⟩
  crash := fun _ _ _ => trivial
  fail := fun _ _ _ _ stages => by rcases stages with holding | holding | holding <;> exact holding

theorem Attempt.Accepts.holding {made : Attempt} (accepts : made.Accepts)
    (called : made = attempt ext orders made.block made.before) :
    ∃ order, Holding (made.before.now.node.blockchain.chain ++ [made.block])
      (made.ledger.applyBlock made.block).2 (made.pool.cleanup ext order made.ledger made.block)
      made.after.now := by
  have outcome := (Holding.acceptance ext orders made.block).acceptBlock_spec made.before
    ⟨fun _ _ => trivial,rfl,rfl,rfl⟩
  refine ⟨orders (made.before.now.node.blockchain.chain.length + 1),?_⟩
  have answer : made.answer = (acceptBlock ext orders made.block made.before).1 := congrArg Attempt.answer called
  have after : made.after = (acceptBlock ext orders made.block made.before).2 := congrArg Attempt.after called
  have chain := accepts.chain
  have alive := accepts.alive
  rw [answer] at alive
  rw [after] at chain ⊢
  cases result : acceptBlock ext orders made.block made.before with
  | mk answer exec =>
    rw [result] at outcome chain alive
    rcases answer with (_ | _) | (_ | _)
    · exact outcome
    · exact absurd rfl alive
    · have unmoved : Holding _ _ _ exec.now := outcome.2
      rw [unmoved.chain] at chain
      simp at chain
    · exact outcome.2

/-- What holds before and after a call that the node survives. -/
theorem attempt_sound {exec : Exec} (sound : Sound ext config exec.now.node) (block : Block)
    (alive : (attempt ext orders block exec).answer ≠ .error .crash) :
    Sound ext config (attempt ext orders block exec).after.now.node := by
  have outcome := (Sound.acceptance ext config orders block).acceptBlock_spec exec ⟨fun _ _ => trivial,sound⟩
  change (acceptBlock ext orders block exec).1 ≠ _ at alive
  change Sound ext config (acceptBlock ext orders block exec).2.now.node
  cases result : acceptBlock ext orders block exec with
  | mk answer after =>
    rw [result] at outcome alive
    rcases answer with (_ | _) | (_ | _)
    · exact outcome
    · exact absurd rfl alive
    · exact outcome.2
    · exact outcome.2

/-- A call that a node makes between two sections of its life, or within one. -/
structure Attempt.Sound (ext : Externals) (config : Config) (orders : Nat → IterationOrder)
    (made : Attempt) : Prop where
  called : made = attempt ext orders made.block made.before
  sound : TitanCore.Sound ext config made.before.now.node

theorem syncAttempts_sound (elements : List Json) {exec : Exec} (sound : Sound ext config exec.now.node) :
    ∀ made ∈ syncAttempts ext orders elements exec, made.Sound ext config orders := by
  induction elements generalizing exec with
  | nil => exact List.forall_mem_nil _
  | cons blockJson rest ih =>
    rw [syncAttempts]
    split
    · exact List.forall_mem_nil _
    · next block _ =>
      split_ifs
      · exact ih sound
      · exact List.forall_mem_nil _
      · dsimp only
        have call : (attempt ext orders block exec).Sound ext config orders := ⟨rfl,sound⟩
        split
        · next answer =>
          have alive : (attempt ext orders block exec).answer ≠ .error .crash := by
            rw [answer]
            exact fun impossible => by cases impossible
          exact List.forall_mem_cons.mpr ⟨call,ih (attempt_sound sound block alive)⟩
        · exact List.forall_mem_singleton.mpr call

theorem messageAttempts_sound (msg : Message) (exec : Exec) (sound : Sound ext config exec.now.node) :
    ∀ made ∈ messageAttempts ext orders msg exec, made.Sound ext config orders := by
  unfold messageAttempts
  split
  · split
    · exact List.forall_mem_nil _
    · split_ifs
      · exact List.forall_mem_singleton.mpr ⟨rfl,sound⟩
      · exact List.forall_mem_nil _
  · split
    · exact List.forall_mem_nil _
    · exact syncAttempts_sound _ sound
  · exact List.forall_mem_nil _

/-- Every call of every run. -/
theorem attempts_sound (actions : List Action) (action : Action) :
    ∀ made ∈ (Process.run ext config actions).attempts ext action,
      ∃ orders, made.Sound ext config orders := by
  intro made member
  have holds := run_sound ext config actions
  unfold Process.attempts at member
  split at member
  · next orders fates =>
    split at member
    · next now up =>
      rw [up] at holds
      split_ifs at member
      · exact absurd member List.not_mem_nil
      · split at member
        · exact absurd member List.not_mem_nil
        · exact ⟨orders,messageAttempts_sound _ ⟨now,fates⟩ holds made member⟩
    · exact absurd member List.not_mem_nil
  · exact absurd member List.not_mem_nil

/-- One turn of the loop. -/
theorem syncBlocks_cons (blockJson : Json) (rest : List Json) (exec : Exec) :
    syncBlocks ext orders (blockJson :: rest) exec = match blockFromJson blockJson with
      | .error e => (.error (.exception e),exec)
      | .ok block =>
        if block.index < exec.now.node.blockchain.getHeight then syncBlocks ext orders rest exec
        else if block.index ≠ exec.now.node.blockchain.getHeight then (.ok (),exec)
        else match acceptBlock ext orders block exec with
          | (.ok true,after) => syncBlocks ext orders rest after
          | (.ok false,after) => (.ok (),after)
          | (.error reason,after) => (.error reason,after) := by
  cases decoded : blockFromJson blockJson with
  | error e =>
    simp only [syncBlocks,decoded]
    rfl
  | ok block =>
    simp only [syncBlocks,decoded]
    change (if _ then _ else if _ then _ else _ : NodeM Unit) exec = _
    split_ifs
    · rfl
    · rfl
    · rw [Program.bind_run]
      cases acceptBlock ext orders block exec with
      | mk answer after =>
        rcases answer with _ | (_ | _) <;> rfl

/-- A section ends where its last call ended, and dies only in a call. -/
structure Ends (calls : List Attempt) (exec : Exec) (outcome : Except Interrupt α × Exec) : Prop where
  state : outcome.2 = calls.getLast?.elim exec Attempt.after
  crash : outcome.1 = .error .crash → ∃ made ∈ calls.getLast?, made.answer = .error .crash

theorem syncBlocks_ends (elements : List Json) (exec : Exec) :
    Ends (syncAttempts ext orders elements exec) exec (syncBlocks ext orders elements exec) := by
  induction elements generalizing exec with
  | nil => exact ⟨rfl,fun impossible => by cases impossible⟩
  | cons blockJson rest ih =>
    rw [syncBlocks_cons,syncAttempts]
    cases blockFromJson blockJson with
    | error e => exact ⟨rfl,fun impossible => by cases impossible⟩
    | ok block =>
      dsimp only
      split_ifs
      · exact ih exec
      · exact ⟨rfl,fun impossible => by cases impossible⟩
      · unfold attempt
        cases acceptBlock ext orders block exec with
        | mk answer after =>
          rcases answer with reason | (_ | _)
          · exact ⟨rfl,fun crash => ⟨_,rfl,congrArg _ (Except.error.inj crash)⟩⟩
          · exact ⟨rfl,fun impossible => by cases impossible⟩
          · obtain ⟨state,crash⟩ := ih after
            dsimp only
            cases last : (syncAttempts ext orders rest after).getLast? with
            | none =>
              rw [last] at state crash
              refine ⟨by rw [List.getLast?_cons,last]; exact state,fun crashed => ?_⟩
              obtain ⟨made,impossible,-⟩ := crash crashed
              cases impossible
            | some made =>
              rw [last] at state crash
              refine ⟨by rw [List.getLast?_cons,last]; exact state,fun crashed => ?_⟩
              rw [List.getLast?_cons,last]
              exact crash crashed

theorem onNewBlock_ends {payload : Json} {block : Block} (decoded : blockFromJson payload = .ok block)
    (fromPeer : Nat) {exec : Exec} (next : block.index = exec.now.node.blockchain.getHeight) :
    Ends [attempt ext orders block exec] exec (onNewBlock ext orders payload fromPeer exec) := by
  unfold onNewBlock
  rw [decoded]
  change Ends _ exec ((if exec.now.node.blockchain.getHeight < block.index then _
    else if block.index < exec.now.node.blockchain.getHeight then _ else _ : NodeM (Option Send)) exec)
  rw [if_neg (by rw [next]; exact UInt64.lt_irrefl _),if_neg (by rw [next]; exact UInt64.lt_irrefl _),
    Program.bind_run]
  unfold attempt
  cases acceptBlock ext orders block exec with
  | mk answer after =>
    rcases answer with reason | (_ | _)
    · exact ⟨rfl,fun crash => ⟨_,rfl,congrArg _ (Except.error.inj crash)⟩⟩
    · exact ⟨rfl,fun impossible => by cases impossible⟩
    · exact ⟨rfl,fun impossible => by cases impossible⟩

theorem onBlocks_ends {payload blocksArray : Json} (found : payload.at? (str "blocks") = .ok blocksArray)
    (exec : Exec) :
    Ends (syncAttempts ext orders blocksArray.elements exec) exec (onBlocks ext orders payload exec) := by
  have ends : Ends (syncAttempts ext orders blocksArray.elements exec) exec
      (syncBlocks ext orders blocksArray.elements exec) := syncBlocks_ends _ _
  obtain ⟨state,crash⟩ := ends
  unfold onBlocks
  rw [found]
  change Ends _ exec ((syncBlocks ext orders blocksArray.elements >>= fun _ => pure none : NodeM (Option Send)) exec)
  rw [Program.bind_run]
  cases result : syncBlocks ext orders blocksArray.elements exec with
  | mk answer after =>
    rw [result] at state crash
    cases answer with
    | ok _ => exact ⟨state,fun impossible => by cases impossible⟩
    | error reason => exact ⟨state,fun crashed => crash (congrArg _ (Except.error.inj crashed))⟩

theorem handleMessage_ends (msg : Message) (fromPeer : Nat) {exec : Exec}
    (calls : messageAttempts ext orders msg exec ≠ []) :
    Ends (messageAttempts ext orders msg exec) exec (handleMessage ext orders msg fromPeer exec) := by
  unfold messageAttempts at calls ⊢
  unfold handleMessage
  split at calls
  · next kind =>
    rw [kind]
    split at calls
    · exact absurd rfl calls
    · next block decoded =>
      split_ifs at calls with next
      · simp only [if_pos next]
        exact onNewBlock_ends decoded fromPeer next
      · exact absurd rfl calls
  · next kind =>
    rw [kind]
    split at calls
    · exact absurd rfl calls
    · next blocksArray found =>
      exact onBlocks_ends found exec
  · exact absurd rfl calls

/-- The node after a step is the one its last call left. -/
theorem Process.attempts_last {process : Process} {action : Action} {made : Attempt}
    (last : (process.attempts ext action).getLast? = some made) (alive : made.answer ≠ .error .crash) :
    (process.step ext config action).node? = some made.after.now.node := by
  unfold Process.attempts at last
  split at last
  · next body fromPeer orders fates =>
    split at last
    · next now =>
      by_cases long : maxBodyLen < body.length
      · rw [if_pos long] at last
        cases last
      rw [if_neg long] at last
      split at last
      · cases last
      · next msg decoded =>
        have some_call : messageAttempts ext orders msg ⟨now,fates⟩ ≠ [] := by
          intro none_made
          rw [none_made] at last
          cases last
        obtain ⟨state,crash⟩ := handleMessage_ends msg fromPeer some_call
        rw [last] at state crash
        simp only [Process.step,if_neg long,decoded]
        change (finish (handleMessage ext orders msg fromPeer ⟨now,fates⟩)).node? = _
        cases result : handleMessage ext orders msg fromPeer ⟨now,fates⟩ with
        | mk answer exec =>
          rw [result] at state crash
          obtain rfl : exec = made.after := state
          rcases answer with (_ | _) | _
          · rfl
          · obtain ⟨found,same,dead⟩ := crash rfl
            obtain rfl := Option.mem_some_iff.mp same
            exact absurd dead alive
          · rfl
    · cases last
  · cases last

theorem Attempt.Sound.accepts {made : Attempt} (sound : made.Sound ext config orders)
    (accepting : made.accepting = true) : made.Accepts := by
  have answer : made.answer = .ok true := by
    unfold Attempt.accepting at accepting
    split at accepting
    · next accepted found => rw [found,accepting]
    · cases accepting
  have outcome := (Holding.acceptance ext orders made.block).acceptBlock_spec made.before
    ⟨fun _ _ => trivial,rfl,rfl,rfl⟩
  have given : made.answer = (acceptBlock ext orders made.block made.before).1 :=
    congrArg Attempt.answer sound.called
  have after : made.after = (acceptBlock ext orders made.block made.before).2 :=
    congrArg Attempt.after sound.called
  constructor
  · rw [after]
    rw [given] at answer
    cases result : acceptBlock ext orders made.block made.before with
    | mk returned exec =>
      rw [result] at outcome answer
      obtain rfl : returned = .ok true := answer
      exact (outcome.2 : Holding _ _ _ exec.now).chain
  · rw [answer]
    exact fun impossible => by cases impossible

theorem Attempt.Sound.verified {made : Attempt} (sound : made.Sound ext config orders)
    (accepts : made.Accepts) : ∀ tx ∈ made.block.transactions, verifyTransaction ext tx = true := by
  have alive := accepts.alive
  rw [sound.called] at alive
  have after := attempt_sound sound.sound made.block alive
  rw [← sound.called] at after
  have verified := after.configured.last_verified accepts.chain made.before.now.node.blockchain.nonempty
  exact ((verifyBlock_iff ext made.block).mp verified).2.2.2

end

/-- A block that a node takes from a peer drops obsolete transactions only, exactly if the ledger
takes it or it names nothing that is still pending for the ledger. -/
theorem drops_obsolete_iff (ext : Externals) (config : Config) (actions : List Action) (action : Action)
    (made : Attempt) (called : made ∈ (Process.run ext config actions).attempts ext action)
    (accepts : made.Accepts) (small : made.pool.size < 2 ^ 64)
    (short : made.block.transactions.length < 2 ^ 64)
    (free : ¬ Collision ext (made.pool.transactions.map (transactionPreimage ext))
      (made.block.transactions.map (transactionPreimage ext))) :
    made.DropsObsolete ↔
      (∃ final, StateManager.Pays made.ledger.accounts made.block.transactions final) ∨
        ∀ tx, ¬ Mempool.Names made.block made.ledger made.pool tx := by
  obtain ⟨orders,sound⟩ := attempts_sound actions action made called
  obtain ⟨order,holding⟩ := accepts.holding sound.called
  unfold Attempt.DropsObsolete
  rw [holding.state,holding.pool]
  exact Mempool.Consistent.cleanup_obsolete_iff sound.sound.pool small short (sound.verified accepts) free

/-- Equal transactions on both sides make no collision. -/
theorem no_collision {ext : Externals} (tx : Transaction) {left right : List Transaction}
    (all_left : ∀ a ∈ left, a = tx) (all_right : ∀ a ∈ right, a = tx) :
    ¬ Collision ext (left.map (transactionPreimage ext)) (right.map (transactionPreimage ext)) := by
  rintro ⟨x,inLeft,y,inRight,differ,-⟩
  obtain ⟨a,member,rfl⟩ := List.mem_map.mp inLeft
  obtain ⟨b,member',rfl⟩ := List.mem_map.mp inRight
  rw [all_left a member,all_right b member'] at differ
  exact differ rfl

open Reference in
/-- The pending payment is confirmed by a block from a peer. -/
theorem drops_obsolete_iff_paying :
    ∃ made ∈ (Process.run libraries (config observerKeys funded false)
      [.boot [],.submitTransaction payment]).attempts libraries (deliver paying []),
      made.pool.transactions = [payment] ∧ made.after.now.node.mempool.transactions = [] ∧
        made.DropsObsolete := by
  have ran : ((Process.run libraries (config observerKeys funded false)
      [.boot [],.submitTransaction payment]).attempts libraries (deliver paying [])).any (fun made =>
      made.accepting ∧ made.block = paying ∧ made.pool.transactions = [payment] ∧
      made.after.now.node.mempool.transactions = [] ∧
      (made.ledger.applyBlock paying).1 = true) = true := by decide +kernel
  obtain ⟨made,called,holds⟩ := List.any_eq_true.mp ran
  obtain ⟨accepting,block,before,after,applied⟩ := of_decide_eq_true holds
  obtain ⟨orders,sound⟩ := attempts_sound _ _ made called
  rw [← block] at applied
  refine ⟨made,called,before,after,(drops_obsolete_iff libraries _ _ _ made called (sound.accepts accepting)
    ?_ ?_ ?_).mpr (.inl (StateManager.applyBlock_true.mp applied))⟩
  · rw [Mempool.size,before]
    decide
  · rw [block]
    decide
  · rw [before,block]
    exact no_collision payment (by decide) (by decide)

open Reference in
/-- A block that holds the pending payment twice enters the chain and not the ledger, and takes the
payment out of the pool. -/
theorem drops_current : ¬ ∀ (actions : List Action) (action : Action) (made : Attempt),
    made ∈ (Process.run moreLibraries (config observerKeys funded false) actions).attempts
      moreLibraries action → made.Accepts → made.DropsObsolete := by
  intro always
  have ran : ((Process.run moreLibraries (config observerKeys funded false)
      [.boot [],.submitTransaction payment]).attempts moreLibraries (hand doubled [])).any (fun made =>
      made.accepting ∧ made.block = doubled ∧ made.pool.transactions = [payment] ∧
      (made.ledger.applyBlock doubled).1 = false ∧
      (made.ledger.getNonce validatorAddress).toNat ≤ Mempool.nonceValue payment) = true := by decide +kernel
  obtain ⟨made,called,holds⟩ := List.any_eq_true.mp ran
  obtain ⟨accepting,block,before,refused,current⟩ := of_decide_eq_true holds
  obtain ⟨orders,sound⟩ := attempts_sound _ _ made called
  have accepts := sound.accepts accepting
  have drops := always _ _ made called accepts
  obtain ⟨order,holding⟩ := accepts.holding sound.called
  have pool : Mempool.Consistent moreLibraries made.ledger made.pool := sound.sound.pool
  have small : made.pool.size < 2 ^ 64 := by
    rw [Mempool.size,before]
    decide
  have short : made.block.transactions.length < 2 ^ 64 := by
    rw [block]
    decide
  have free : ¬ Collision moreLibraries (made.pool.transactions.map (transactionPreimage moreLibraries))
      (made.block.transactions.map (transactionPreimage moreLibraries)) := by
    rw [before,block]
    exact no_collision payment (by decide) (by decide)
  unfold Attempt.DropsObsolete at drops
  rw [holding.state,holding.pool] at drops
  rcases (pool.cleanup_obsolete_iff small short (sound.verified accepts) free).mp drops with payable | unnamed
  · have applied := StateManager.applyBlock_true.mpr payable
    rw [block,refused] at applied
    cases applied
  · refine unnamed payment ⟨?_,?_,current⟩
    · rw [before]
      exact List.mem_singleton_self payment
    · rw [block]
      exact List.mem_map_of_mem List.mem_cons_self

end TitanCore
