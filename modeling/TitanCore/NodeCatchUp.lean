import TitanCore.NodeAgreement
import TitanCore.NodeAnnouncements

/-! What one node gains in one step: where the blocks of its chain come from, and how it gets to
the height of a chain that agrees with its own, hash by hash. -/
namespace TitanCore

/-- Chains that hold blocks of the same hash wherever both have one. -/
def Alike (a b : List Block) : Prop :=
  ∀ (k : Nat) (x y : Block), a[k]? = some x → b[k]? = some y → x.hash = y.hash

section alike
variable {ext : Externals} {consensus : Option PoAConsensus} {a b : List Block}

theorem Alike.symm (alike : Alike a b) : Alike b a :=
  fun k x y at_b at_a => (alike k y x at_a at_b).symm

theorem Alike.of_prefix {shorter : List Block} (alike : Alike a b) (before : shorter <+: a) : Alike shorter b := by
  intro k x y at_shorter at_b
  refine alike k x y ?_ at_b
  obtain ⟨rest,rfl⟩ := before
  rw [List.getElem?_append_left (List.getElem?_eq_some_iff.mp at_shorter).1,at_shorter]

/-- The next block of the one chain goes on the other. -/
theorem Alike.append (alike : Alike a b) {block : Block} (next : a[b.length]? = some block) :
    Alike a (b ++ [block]) := by
  intro k x y at_a at_b
  rcases Blockchain.getElem?_push at_b with old | ⟨rfl,rfl⟩
  · exact alike k x y at_a old
  · rw [next,Option.some.injEq] at at_a
    rw [at_a]

/-- A block refers to the hash of the one before it only. -/
theorem Blockchain.Extends.relink (valid : Blockchain.Extends ext consensus a block) (level : b.length = a.length)
    (alike : Alike a b) : Blockchain.Extends ext consensus b block := by
  obtain ⟨latest,last,linked⟩ := valid.linked
  rw [List.getLast?_eq_getElem?] at last
  have inside : a.length - 1 < b.length := by
    have := (List.getElem?_eq_some_iff.mp last).1
    omega
  refine ⟨valid.index.trans level.symm,⟨b[a.length - 1],?_,?_⟩,valid.verified,valid.scheduled,
    by rw [level]; exact valid.room⟩
  · rw [List.getLast?_eq_getElem?,level,List.getElem?_eq_getElem inside]
  · rw [linked]
    exact alike _ _ _ last (List.getElem?_eq_getElem inside)

end alike

section growth
variable {ext : Externals} {config : Config}

def Grows (base : List Block) (offered : Block → Prop) (now : Snapshot) : Prop :=
  ∃ more, now.node.blockchain.chain = base ++ more ∧ ∀ block ∈ more, offered block

def GrewTo (base : List Block) (offered : Block → Prop) (held : Option Node) (_ : Storage) (_ : List Send)
    (_ : List Event) : Prop :=
  ∃ node, held = some node ∧ ∃ more, node.blockchain.chain = base ++ more ∧ ∀ block ∈ more, offered block

theorem Grows.bookkeeping {base : List Block} {offered : Block → Prop} (orders : Nat → IterationOrder)
    {block : Block} (offer : offered block) :
    Bookkeeping ext (fun _ => True) orders block (Process.afterwards (Grows base offered) (GrewTo base offered))
      (Grows base offered) (Grows base offered) (Grows base offered) (Grows base offered) (Grows base offered)
      (Grows base offered) (Grows base offered) where
  refuse := fun now grows refused => by
    obtain ⟨more,chain,each⟩ := grows
    exact ⟨more,(Blockchain.addBlock_refused ext _ _ refused).trans chain,each⟩
  append := fun now grows accepted => by
    obtain ⟨more,chain,each⟩ := grows
    refine ⟨more ++ [block],?_,fun other member => ?_⟩
    · rw [← List.append_assoc,← chain]
      exact (Blockchain.addBlock_accepted ext _ _ accepted).2
    · rcases List.mem_append.mp member with old | new
      · exact each other old
      · rw [List.mem_singleton.mp new]
        exact offer
  apply := fun _ grows => grows
  clean := fun _ grows => grows
  save := fun _ _ _ _ grows _ _ => grows
  count := fun _ _ _ _ grows _ _ => grows
  account := fun _ _ _ _ _ _ grows _ _ _ => grows
  complete := fun _ _ grows _ _ => grows
  memory := fun _ grows _ => grows
  crash := fun _ _ stages => ⟨_,rfl,by rcases stages with h | h | h | h | h | h <;> exact h⟩
  fail := fun _ _ _ _ stages => by rcases stages with h | h | h <;> exact h

theorem Grows.enduring (base : List Block) (offered : Block → Prop) :
    Process.Enduring ext (fun _ => True) (fun msg => ∀ block, msg.Carries block → offered block)
      (Grows base offered) (GrewTo base offered) where
  announcing := {
    interrupt := fun _ _ grows => grows
    blame := fun _ _ grows => grows
    reply := fun _ _ _ grows _ _ => grows
    admission := fun _ _ _ _ _ _ grows => grows
    accept := fun orders _ block hears carries =>
      ⟨_,_,_,_,_,_,(Grows.bookkeeping orders (hears block carries)),fun _ grows => grows,fun _ _ _ grows => grows⟩ }
  kill := fun _ grows => ⟨_,rfl,grows⟩
  broadcast := fun _ _ _ grows _ => grows

/-- What a step adds to the chain was in the message that the step dealt with, even if the process dies
in it. -/
theorem Process.step_memory {now : Snapshot} {action : Action} {offered : Block → Prop}
    (offers : ∀ msg, action.Hears ext msg → ∀ block, msg.Carries block → offered block) {node : Node}
    (memory : ((Process.up now).step ext config action).memory? = some node) :
    ∃ more, node.blockchain.chain = now.node.blockchain.chain ++ more ∧ ∀ block ∈ more, offered block := by
  have start : Grows now.node.blockchain.chain offered now := ⟨[],(List.append_nil _).symm,List.forall_mem_nil _⟩
  cases boots : action.boots with
  | true =>
    cases action with
    | boot fates =>
      obtain rfl := Option.some.inj memory
      exact start
    | _ => cases boots
  | false =>
    have holds : Process.Holds (Grows now.node.blockchain.chain offered) (GrewTo now.node.blockchain.chain offered)
        ((Process.up now).step ext config action) :=
      (Grows.enduring now.node.blockchain.chain offered).step_holds action (fun _ _ => trivial) boots offers start
    cases result : (Process.up now).step ext config action with
    | up later =>
      rw [result] at holds memory
      obtain rfl := Option.some.inj memory
      exact holds
    | down held disk sent log =>
      rw [result] at holds memory
      obtain ⟨found,same,grew⟩ := holds
      obtain rfl := Option.some.inj (same.symm.trans memory)
      exact grew

/-- Apart from what the node makes itself, blocks come with messages. -/
theorem Action.Hears.brings {action : Action} {msg : Message} (hears : action.Hears ext msg)
    (other : ∀ clock orders fates, action ≠ .produceBlock clock orders fates) {block : Block}
    (carries : msg.Carries block) : action.Brings ext msg := by
  cases action with
  | receive body fromPeer orders fates => exact hears
  | produceBlock clock orders fates => exact absurd rfl (other clock orders fates)
  | submitTransaction tx =>
    obtain rfl : msg = ⟨.newTx,tx.toJson⟩ := hears
    cases carries
  | _ => exact hears.elim

/-- So what a step adds that is no production was brought to the node. -/
theorem Process.step_brought {now : Snapshot} {action : Action}
    (other : ∀ clock orders fates, action ≠ .produceBlock clock orders fates) {node : Node}
    (memory : ((Process.up now).step ext config action).memory? = some node) :
    ∃ more, node.blockchain.chain = now.node.blockchain.chain ++ more ∧
      ∀ block ∈ more, ∃ msg, action.Brings ext msg ∧ msg.Carries block :=
  Process.step_memory (fun msg hears _ carries => ⟨msg,hears.brings other carries,carries⟩) memory

theorem Process.step_grows {now later : Snapshot} {action : Action}
    (stepped : (Process.up now).step ext config action = .up later) {offered : Block → Prop}
    (offers : ∀ msg, action.Hears ext msg → ∀ block, msg.Carries block → offered block) :
    Grows now.node.blockchain.chain offered later :=
  Process.step_memory offers (by rw [stepped]; rfl)

theorem Process.step_keeps {now later : Snapshot} {action : Action}
    (stepped : (Process.up now).step ext config action = .up later) :
    now.node.blockchain.chain <+: later.node.blockchain.chain := by
  have ⟨more,chain,_⟩ : Grows now.node.blockchain.chain (fun _ => True) later :=
    Process.step_grows stepped fun _ _ _ _ => trivial
  exact ⟨more,chain.symm⟩

end growth

section reaching
variable {ext : Externals} {consensus : Option PoAConsensus} {genesis : Block}

/-- The node checks against the schedule, agrees with the source and has its first `n` blocks. -/
structure Follows (consensus : Option PoAConsensus) (source : List Block) (n : Nat) (now : Snapshot) : Prop where
  consensus : now.node.blockchain.consensus = consensus
  alike : Alike source now.node.blockchain.chain
  reached : n ≤ now.node.blockchain.chain.length

/-- The block after `seen` is accepted by a node that has just these. -/
theorem acceptBlock_follows (orders : Nat → IterationOrder) {source seen : List Block} {block : Block}
    (valid : Blockchain.Extends ext consensus seen block) (before : seen ++ [block] <+: source) {now : Snapshot}
    (follows : Follows consensus source seen.length now) (level : now.node.blockchain.chain.length = seen.length) :
    Spec Undisturbed (fun later => later = now) (acceptBlock ext orders block)
      (fun accepted later => accepted = true ∧ Follows consensus source (seen.length + 1) later) Never := by
  have relinked : Blockchain.Extends ext consensus now.node.blockchain.chain block :=
    valid.relink level (follows.alike.of_prefix ((List.prefix_append _ _).trans before))
  have accepts : Spec Undisturbed (Stands consensus now.node.blockchain.chain now.node.state.accounts)
      (acceptBlock ext orders block) _ Never := acceptBlock_extends orders relinked
  refine Spec.consequence accepts (fun later same => ?_) fun accepted later outcome => ?_
  · rw [same]
    exact ⟨follows.consensus,rfl,rfl⟩
  · obtain ⟨yes,stands⟩ := outcome
    refine ⟨yes,stands.consensus,?_,?_⟩
    · rw [stands.chain]
      refine follows.alike.append ?_
      obtain ⟨rest,rfl⟩ := before
      rw [level,List.append_assoc,List.getElem?_append_right (Nat.le_refl _)]
      simp
    · rw [stands.chain,List.length_append,level]
      exact Nat.le_refl _

/-- The loop over the blocks after `seen` brings the node to the height of the source. -/
theorem syncBlocks_reaches (orders : Nat → IterationOrder) {source seen rest : List Block}
    (grown : Grown ext consensus genesis source) (parts : source = seen ++ rest) (begun : seen ≠ []) :
    Spec Undisturbed (Follows consensus source seen.length) (syncBlocks ext orders (rest.map Block.toJson))
      (fun _ => Follows consensus source source.length) Never := by
  induction rest generalizing seen with
  | nil =>
    rw [List.append_nil] at parts
    rw [parts]
    exact Spec.pure fun _ follows => follows
  | cons block rest ih =>
    have parts' : source = (seen ++ [block]) ++ rest := by rw [parts,List.append_assoc]; rfl
    have before : seen ++ [block] <+: source := parts' ▸ List.prefix_append _ _
    have valid : Blockchain.Extends ext consensus seen block := grown.extends_of_prefix begun before
    have later : Spec Undisturbed (Follows consensus source (seen.length + 1))
        (syncBlocks ext orders (rest.map Block.toJson)) (fun _ => Follows consensus source source.length) Never := by
      have next := ih parts' (by simp)
      rwa [List.length_append,List.length_singleton] at next
    refine Spec.through (fun found now => found = block ∧ Follows consensus source seen.length now)
      (Spec.lift (fun found ok now start => ⟨?_,start⟩) fun e error => ?_) fun found =>
        Spec.getNode_bind fun node exec start => ?_
    · rw [blockFromJson_toJson] at ok
      exact (Except.ok.inj ok).symm
    · rw [blockFromJson_toJson] at error
      cases error
    obtain ⟨rfl,follows⟩ := start.2.1
    have height : node.blockchain.getHeight.toNat = node.blockchain.chain.length := Blockchain.getHeight_toNat _
    have enough : seen.length ≤ node.blockchain.chain.length := start.2.2 ▸ follows.reached
    refine Spec.ite (fun known => ?_) (fun unknown => Spec.ite (fun gap => ?_) fun _ => ?_) exec start
    · -- the node has a block of this index
      rw [UInt64.lt_iff_toNat_lt,valid.index,height] at known
      refine Spec.weaken _ later fun now started => ⟨started.1.2.consensus,started.1.2.alike,?_⟩
      rw [started.2]
      exact known
    · -- it has everything before the block
      rw [UInt64.lt_iff_toNat_lt,valid.index,height] at unknown
      exact absurd (UInt64.toNat.inj (by rw [valid.index,height]; omega)) gap
    · rw [UInt64.lt_iff_toNat_lt,valid.index,height] at unknown
      intro exec started
      have level : exec.now.node.blockchain.chain.length = seen.length := by
        rw [started.2.2]
        omega
      refine Spec.bind (acceptBlock_follows orders valid before started.2.1.2 level) (fun accepted =>
        Spec.ite (fun _ => Spec.weaken _ later fun _ outcome => outcome.2) fun no exec outcome => ?_)
        exec ⟨started.1,rfl⟩
      exact absurd outcome.2.1 no

theorem onBlocks_reaches (orders : Nat → IterationOrder) {source : List Block}
    (grown : Grown ext consensus genesis source) {start : Nat} (asked : 0 < start) (inside : start ≤ source.length) :
    Spec Undisturbed (Follows consensus source start)
      (onBlocks ext orders (blocksPayload ((source.drop start).map Block.toJson)))
      (fun deferred now => deferred = none ∧ Follows consensus source source.length now) Never := by
  have front : (source.take start).length = start := by
    rw [List.length_take]
    omega
  have begun : source.take start ≠ [] := fun empty => by
    rw [empty] at front
    exact absurd front.symm asked.ne'
  have loop := syncBlocks_reaches orders grown (List.take_append_drop start source).symm begun
  rw [front] at loop
  refine Spec.through (fun blocksArray now => blocksArray = .array ((source.drop start).map Block.toJson) ∧
      Follows consensus source start now)
    (Spec.lift (fun found ok now started => ⟨(Except.ok.inj ok).symm,started⟩) fun e error => by cases error)
    fun blocksArray exec started => ?_
  obtain rfl := started.2.1
  exact Spec.bind (Spec.weaken _ loop fun _ h => h.2) (fun _ => Spec.pure fun _ follows => ⟨rfl,follows⟩) exec started

theorem onNewBlock_ahead (orders : Nat → IterationOrder) {block : Block} (fromPeer : Nat) (now : Snapshot)
    (ahead : now.node.blockchain.getHeight < block.index) (fates : List Fate) :
    onNewBlock ext orders block.toJson fromPeer ⟨now,fates⟩ =
      (.ok none,⟨now.send (.peer fromPeer) ⟨.getBlocks,fromPayload now.node.blockchain.getHeight⟩,fates⟩) := by
  unfold onNewBlock
  rw [blockFromJson_toJson]
  change (if now.node.blockchain.getHeight < block.index then _ else _ : NodeM (Option Send)) _ = _
  rw [if_pos ahead]
  rfl

end reaching

section steps
variable {ext : Externals} {config : Config} {consensus : Option PoAConsensus} {genesis : Block} {now later : Snapshot}
  {orders : Nat → IterationOrder} {fates : List Fate}

theorem Process.step_peerConnected (peer : Nat) (now : Snapshot) : (Process.up now).step ext config (.peerConnected peer) =
    .up (now.send (.peer peer) ⟨.getBlocks,fromPayload now.node.blockchain.getHeight⟩) :=
  Process.finish_silent _ _

theorem Process.step_blocks (parses : ext.ParseUndoesDump) {source : List Block} {start : Nat} (asked : 0 < start)
    (inside : start ≤ source.length) (grown : Grown ext consensus genesis source)
    (fits : Fits ext ⟨.blocks,blocksPayload ((source.drop start).map Block.toJson)⟩)
    (follows : Follows consensus source start now) (calm : ∀ fate ∈ fates, Undisturbed fate) {fromPeer : Nat}
    (stepped : (Process.up now).step ext config (.receive (messageBody ext
      ⟨.blocks,blocksPayload ((source.drop start).map Block.toJson)⟩) fromPeer orders fates) = .up later) :
    source.length ≤ later.node.blockchain.chain.length := by
  obtain ⟨_,after,ran,rfl,reached⟩ := (onBlocks_reaches orders grown asked inside).returns now follows calm
  rw [Process.step_receive ext config parses _ _ (canonical_blocksPayload _) rfl fits] at stepped
  change Process.finish (onBlocks ext orders _ ⟨now,fates⟩) = _ at stepped
  rw [ran,Process.finish_silent,Process.up.injEq] at stepped
  rw [← stepped]
  exact reached.reached

/-- A node that is told of a block has one of that index afterwards, or asks for what it lacks. -/
theorem Process.step_newBlock (parses : ext.ParseUndoesDump) {before : List Block} {block : Block}
    (valid : Blockchain.Extends ext consensus before block) (fits : Fits ext ⟨.newBlock,block.toJson⟩)
    (schedule : now.node.blockchain.consensus = consensus) (alike : Alike before now.node.blockchain.chain)
    (calm : ∀ fate ∈ fates, Undisturbed fate) {fromPeer : Nat}
    (stepped : (Process.up now).step ext config
      (.receive (messageBody ext ⟨.newBlock,block.toJson⟩) fromPeer orders fates) = .up later) :
    before.length < later.node.blockchain.chain.length ∨
    now.node.blockchain.chain.length < before.length ∧
      later = now.send (.peer fromPeer) ⟨.getBlocks,fromPayload now.node.blockchain.getHeight⟩ := by
  have kept := (Process.step_keeps stepped).length_le
  rw [Process.step_receive ext config parses _ _ block.canonical_toJson rfl fits] at stepped
  change Process.finish (onNewBlock ext orders block.toJson fromPeer ⟨now,fates⟩) = _ at stepped
  rcases Nat.lt_trichotomy now.node.blockchain.chain.length before.length with behind | level | beyond
  · right
    have ahead : now.node.blockchain.getHeight < block.index := by
      rw [UInt64.lt_iff_toNat_lt,Blockchain.getHeight_toNat,valid.index]
      exact behind
    rw [onNewBlock_ahead orders fromPeer now ahead,Process.finish_silent,Process.up.injEq] at stepped
    exact ⟨behind,stepped.symm⟩
  · left
    obtain ⟨_,after,ran,rfl,stands⟩ := (onNewBlock_extends orders (valid.relink level alike) fromPeer).returns now
      ⟨schedule,rfl,rfl⟩ calm
    rw [ran] at stepped
    have chain : later.node.blockchain.chain = now.node.blockchain.chain ++ [block] := by
      rw [← Process.up.inj stepped]
      exact stands.chain
    rw [chain,List.length_append,level]
    exact Nat.lt_succ_self _
  · exact .inl (beyond.trans_le kept)

/-- A node whose turn it is produces a block and is about to announce it; else nothing is added. -/
theorem Process.step_produceBlock (sound : Sound ext config now.node) (keys : config.nodeKeys.WellFormed ext)
    (room : now.node.blockchain.chain.length + 1 < 2 ^ 64) (calm : ∀ fate ∈ fates, Undisturbed fate) {clock : UInt64}
    (stepped : (Process.up now).step ext config (.produceBlock clock orders fates) = .up later) :
    (now.node.consensus.getProducer now.node.blockchain.getHeight = now.node.nodeAddr ∧
      ∃ block, Blockchain.Extends ext now.node.blockchain.consensus now.node.blockchain.chain block ∧
        later.node.blockchain.chain = now.node.blockchain.chain ++ [block] ∧
        ⟨.others none,.newBlock,block.toJson⟩ ∈ later.outbox) ∨
    (now.node.consensus.getProducer now.node.blockchain.getHeight ≠ now.node.nodeAddr ∧ later = now) := by
  change Process.finish (produceBlock ext orders clock ⟨now,fates⟩) = _ at stepped
  by_cases turn : now.node.consensus.getProducer now.node.blockchain.getHeight = now.node.nodeAddr
  · obtain ⟨_,after,ran,block,rfl,valid,stands⟩ :=
      (produceBlock_turn sound keys room orders clock turn).returns now rfl calm
    rw [ran] at stepped
    obtain rfl := Process.up.inj stepped
    exact .inl ⟨turn,block,valid,stands.chain,List.mem_append_right _ (List.mem_singleton_self _)⟩
  · rw [produceBlock_wait turn orders clock now rfl,Process.finish_silent,Process.up.injEq] at stepped
    exact .inr ⟨turn,stepped.symm⟩

end steps
end TitanCore
