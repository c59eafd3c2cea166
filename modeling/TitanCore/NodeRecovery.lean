import TitanCore.BlockchainInvariant
import TitanCore.NodeLedger

/-! Crash recovery. The disk always holds a chain: the one in memory, or that chain without
its last block. A restart rebuilds exactly the chain on disk, however often it is interrupted. -/
namespace TitanCore

section
variable {ext : Externals} {consensus : Option PoAConsensus} {genesis : Block}

theorem Grown.of_prefix {chain older : List Block} (grown : Grown ext consensus genesis chain)
    (before : older <+: chain) (nonempty : older ≠ []) : Grown ext consensus genesis older := by
  induction grown with
  | genesis =>
    obtain ⟨first,rest,rfl⟩ := List.exists_cons_of_ne_nil nonempty
    obtain ⟨rfl,empty⟩ := List.cons_prefix_cons.mp before
    rw [List.prefix_nil.mp empty]
    exact .genesis
  | append grown valid ih =>
    rcases List.prefix_concat_iff.mp before with rfl | shorter
    · exact .append grown valid
    · exact ih shorter

theorem Grown.head {chain : List Block} (grown : Grown ext consensus genesis chain) :
    [genesis] <+: chain := by
  induction grown with
  | genesis => exact List.prefix_rfl
  | append grown valid ih => exact ih.trans (List.prefix_append _ _)

/-- Each block of a grown chain extends the blocks before it. -/
theorem Grown.extends_of_prefix {chain older : List Block}
    (grown : Grown ext consensus genesis chain) (nonempty : older ≠ []) {block : Block}
    (before : older ++ [block] <+: chain) : Blockchain.Extends ext consensus older block := by
  generalize whole : older ++ [block] = made at before
  cases grown.of_prefix before (by simp [← whole]) with
  | genesis =>
    obtain ⟨rfl,-⟩ := List.append_inj' (whole.trans (List.nil_append [genesis]).symm) rfl
    exact absurd rfl nonempty
  | append _ valid =>
    obtain ⟨rfl,same⟩ := List.append_inj' whole rfl
    obtain ⟨rfl,-⟩ := List.cons.inj same
    exact valid

theorem Configured.last_verified {config : Config} {node : Node} (configured : Configured ext config node)
    {older : List Block} {block : Block} (chain : node.blockchain.chain = older ++ [block])
    (nonempty : older ≠ []) : verifyBlock ext block = true := by
  obtain ⟨genesis,-,grown⟩ := configured.grown
  rw [chain] at grown
  exact (grown.extends_of_prefix nonempty List.prefix_rfl).verified

end

/-- The data directory holds the blocks of a chain, all but the genesis block, which the
constructor makes anew. -/
structure OnDisk (ext : Externals) (config : Config) (disk : Storage) (chain : List Block) : Prop where
  grown : ∃ consensus genesis, consensus.authorities = config.authorities ∧
    createGenesisBlock ext config.genesisValidatorKeys = .ok genesis ∧
    Grown ext (some consensus) genesis chain
  blocks : ∀ (i : Nat) (block : Block), 1 ≤ i → chain[i]? = some block →
    disk.db.lookup (Storage.blockKey (UInt64.ofNat i)) = some (ext.dump block.toJson)

namespace OnDisk
variable {ext : Externals} {config : Config} {disk : Storage} {chain : List Block}

theorem nonempty (onDisk : OnDisk ext config disk chain) : chain ≠ [] := by
  obtain ⟨_,_,_,_,grown⟩ := onDisk.grown
  exact grown.nonempty

theorem load (onDisk : OnDisk ext config disk chain) (parses : ext.ParseUndoesDump) {i : Nat}
    {block : Block} (positive : 1 ≤ i) (at_i : chain[i]? = some block) :
    disk.loadBlock ext (UInt64.ofNat i) = .ok (some block) :=
  Storage.loadBlock_record parses (onDisk.blocks i block positive at_i)

theorem of_prefix (onDisk : OnDisk ext config disk chain) {older : List Block}
    (before : older <+: chain) (nonempty : older ≠ []) : OnDisk ext config disk older := by
  obtain ⟨consensus,genesis,authorities,created,grown⟩ := onDisk.grown
  refine ⟨⟨consensus,genesis,authorities,created,grown.of_prefix before nonempty⟩,
    fun i block positive at_i => onDisk.blocks i block positive ?_⟩
  obtain ⟨newer,rfl⟩ := before
  rw [List.getElem?_append_left (List.getElem?_eq_some_iff.mp at_i).1,at_i]

theorem start (onDisk : OnDisk ext config disk chain) {node : Node}
    (configured : Configured ext config node) {first : Block}
    (single : node.blockchain.chain = [first]) : node.blockchain.chain <+: chain := by
  obtain ⟨_,origin,_,created,grown⟩ := onDisk.grown
  obtain ⟨origin',created',grown'⟩ := configured.grown
  obtain rfl := Except.ok.inj (created.symm.trans created')
  have same := grown'.head
  rw [single] at same ⊢
  rw [← List.IsPrefix.eq_of_length same rfl]
  exact grown.head

/-- Such a node accepts the next block of the chain. -/
theorem accepted (onDisk : OnDisk ext config disk chain) {node : Node}
    (configured : Configured ext config node) {block : Block}
    (next : node.blockchain.chain ++ [block] <+: chain) :
    (node.blockchain.addBlock ext block).1 = true := by
  obtain ⟨consensus,_,authorities,_,grown⟩ := onDisk.grown
  apply Blockchain.addBlock_of_extends
  have schedule := PoAConsensus.authorities_injective
    (authorities.trans configured.authorities.symm)
  rw [configured.consensus,← schedule]
  exact grown.extends_of_prefix node.blockchain.nonempty next

end OnDisk

def Replayed (log later : List Event) : Prop :=
  ∃ added, later = log ++ added ∧
    ∀ event ∈ added, ∃ block before chain after, event = .applied block before chain after

theorem Replayed.refl (log : List Event) : Replayed log log := ⟨[],by simp,by simp⟩

theorem Replayed.applied {log later : List Event} (replayed : Replayed log later) (block : Block)
    (before : Accounts) (chain : List Block) (after : Accounts) :
    Replayed log (later ++ [.applied block before chain after]) := by
  obtain ⟨added,rfl,only⟩ := replayed
  refine ⟨added ++ [.applied block before chain after],by simp,fun event member => ?_⟩
  rcases List.mem_append.mp member with old | new
  · exact only event old
  · exact ⟨block,before,chain,after,List.mem_singleton.mp new⟩

theorem Replayed.mem_iff {log later : List Event} (replayed : Replayed log later) {event : Event}
    (other : ∀ block before chain after, event ≠ .applied block before chain after) :
    event ∈ later ↔ event ∈ log := by
  obtain ⟨added,rfl,only⟩ := replayed
  rw [List.mem_append]
  refine ⟨fun member => member.resolve_right fun new => ?_,.inl⟩
  obtain ⟨_,_,_,_,same⟩ := only event new
  exact other _ _ _ _ same

/-- What a constructor interrupted in its replay leaves, besides the untouched disk. -/
structure Interrupted (config : Config) (sent : List Send) (log : List Event) (now : Snapshot) :
    Prop where
  faithful : Faithful config now.log
  sent : now.sent = sent
  replayed : Replayed log now.log

/-- A node after `i - 1` blocks of the replay: every chain on disk agrees with it so far. -/
structure Rebuilding (ext : Externals) (config : Config) (disk : Storage) (sent : List Send)
    (log : List Event) (i : Nat) (now : Snapshot) : Prop where
  recorded : Recorded ext config now
  pool : now.node.mempool = Mempool.empty
  storage : now.node.storage = some disk
  outbox : now.outbox = []
  sent : now.sent = sent
  replayed : Replayed log now.log
  length : now.node.blockchain.chain.length = i
  agrees : ∀ chain, OnDisk ext config disk chain →
    chain <+: now.node.blockchain.chain ∨ now.node.blockchain.chain <+: chain

/-- A node after the replay of `height` blocks: it contains every chain the disk holds up to
that height. -/
structure Rebuilt (ext : Externals) (config : Config) (disk : Storage) (sent : List Send)
    (log : List Event) (height : Nat) (now : Snapshot) : Prop where
  recorded : Recorded ext config now
  storage : now.node.storage = some disk
  outbox : now.outbox = []
  sent : now.sent = sent
  replayed : Replayed log now.log
  bounded : now.node.blockchain.chain.length ≤ height
  contains : ∀ chain, OnDisk ext config disk chain → chain.length ≤ height →
    chain <+: now.node.blockchain.chain

section
variable {ext : Externals} {config : Config} {disk : Storage} {sent : List Send} {log : List Event}

theorem Rebuilding.interrupted {i : Nat} {now : Snapshot}
    (rebuilding : Rebuilding ext config disk sent log i now) : Interrupted config sent log now :=
  ⟨rebuilding.recorded.faithful,rebuilding.sent,rebuilding.replayed⟩

/-- The replay may stop at `i` when no chain on disk goes further. -/
theorem Rebuilding.stop {i height : Nat} {now : Snapshot} (inside : i ≤ height)
    (rebuilding : Rebuilding ext config disk sent log i now)
    (last : ∀ chain, OnDisk ext config disk chain → chain.length ≤ height → chain.length ≤ i) :
    Rebuilt ext config disk sent log height now where
  recorded := rebuilding.recorded
  storage := rebuilding.storage
  outbox := rebuilding.outbox
  sent := rebuilding.sent
  replayed := rebuilding.replayed
  bounded := by rw [rebuilding.length]; exact inside
  contains := fun chain onDisk fits => by
    rcases rebuilding.agrees chain onDisk with shorter | longer
    · exact shorter
    · have short := last chain onDisk fits
      rw [← rebuilding.length] at short
      rw [longer.eq_of_length_le short]

/-- A chain on disk that goes further has a next block, and it can be loaded. -/
theorem Rebuilding.next {i : Nat} {now : Snapshot} (parses : ext.ParseUndoesDump)
    (rebuilding : Rebuilding ext config disk sent log i now) (positive : 1 ≤ i) {chain : List Block}
    (onDisk : OnDisk ext config disk chain) (beyond : i < chain.length) :
    ∃ block, now.node.blockchain.chain ++ [block] <+: chain ∧
      disk.loadBlock ext (UInt64.ofNat i) = .ok (some block) := by
  have length := rebuilding.length
  rcases rebuilding.agrees chain onDisk with shorter | ⟨rest,rfl⟩
  · have := shorter.length_le
    omega
  · cases rest with
    | nil =>
      rw [List.append_nil] at beyond
      omega
    | cons block rest =>
      refine ⟨block,⟨rest,by simp⟩,onDisk.load parses positive ?_⟩
      rw [List.getElem?_append_right length.le,length,Nat.sub_self]
      rfl

theorem Rebuilding.refused {i : Nat} {now : Snapshot}
    (rebuilding : Rebuilding ext config disk sent log i now) {block : Block}
    (refused : (now.node.blockchain.addBlock ext block).1 = false) :
    Rebuilding ext config disk sent log i (now.onNode (Node.addBlock ext block)) := by
  have same : (now.onNode (Node.addBlock ext block)).node.blockchain.chain =
    now.node.blockchain.chain := Blockchain.addBlock_refused ext _ _ refused
  exact ⟨rebuilding.recorded.refused refused,rebuilding.pool,rebuilding.storage,rebuilding.outbox,
    rebuilding.sent,rebuilding.replayed,by rw [same]; exact rebuilding.length,
    by rw [same]; exact rebuilding.agrees⟩

theorem Rebuilding.step {i : Nat} {now : Snapshot} (parses : ext.ParseUndoesDump)
    (rebuilding : Rebuilding ext config disk sent log i now) (positive : 1 ≤ i) {block : Block}
    (loaded : disk.loadBlock ext (UInt64.ofNat i) = .ok (some block))
    (accepted : (now.node.blockchain.addBlock ext block).1 = true) :
    Interrupted config sent log (now.onNode (Node.addBlock ext block)) ∧
    Rebuilding ext config disk sent log (i + 1)
      (((now.onNode (Node.addBlock ext block)).onNode (Node.applyBlock block)).record
        (.applied block now.node.state.accounts (now.node.addBlock ext block).blockchain.chain
          (now.node.state.applyBlock block).2.accounts)) := by
  have unrecorded := rebuilding.recorded.appended accepted
  have settled := unrecorded.lagging.applied
  have longer : (now.node.addBlock ext block).blockchain.chain =
    now.node.blockchain.chain ++ [block] := (Blockchain.addBlock_accepted ext _ _ accepted).2
  refine ⟨⟨unrecorded.faithful,rebuilding.sent,rebuilding.replayed⟩,?_⟩
  constructor
  case recorded =>
    refine ⟨⟨settled.configured,settled.ledger,?_⟩,unrecorded.applied.1,unrecorded.applied.2⟩
    change Mempool.Consistent ext _ now.node.mempool
    rw [rebuilding.pool]
    exact Mempool.empty_consistent ext _
  case pool => exact rebuilding.pool
  case storage => exact rebuilding.storage
  case outbox => exact rebuilding.outbox
  case sent => exact rebuilding.sent
  case replayed => exact rebuilding.replayed.applied _ _ _ _
  case length =>
    change (now.node.addBlock ext block).blockchain.chain.length = i + 1
    rw [longer,List.length_append,rebuilding.length]
    rfl
  case agrees =>
    intro chain onDisk
    change chain <+: (now.node.addBlock ext block).blockchain.chain ∨
      (now.node.addBlock ext block).blockchain.chain <+: chain
    rw [longer]
    by_cases beyond : i < chain.length
    · obtain ⟨found,next,load⟩ := rebuilding.next parses positive onDisk beyond
      rw [loaded] at load
      obtain rfl := Option.some.inj (Except.ok.inj load)
      exact .inr next
    · left
      rcases rebuilding.agrees chain onDisk with shorter | longer
      · exact shorter.trans (List.prefix_append _ _)
      · rw [← longer.eq_of_length_le (by rw [rebuilding.length]; omega)]
        exact List.prefix_append _ _

theorem Rebuilding.recovery (parses : ext.ParseUndoesDump) {allowed : Fate → Prop}
    {halt : Interrupt → Snapshot → Prop} {height : Nat} {done : Snapshot → Prop}
    (rebuilt : ∀ now, Rebuilt ext config disk sent log height now → done now)
    (crash : allowed .crash → ∀ now, Interrupted config sent log now → halt .crash now)
    (unreadable : ∀ i e now, 1 ≤ i → i < height →
      disk.loadBlock ext (UInt64.ofNat i) = .error e →
      Rebuilding ext config disk sent log i now → halt (.exception e) now) :
    Recovery ext allowed halt height
      (fun i now => (1 ≤ i ∧ i ≤ height) ∧ Rebuilding ext config disk sent log i now)
      (fun _ => Interrupted config sent log) done where
  unreadable := fun i now storage e inside start held error => by
    rw [start.2.storage] at held
    obtain rfl := Option.some.inj held
    exact unreadable i e now start.1.1 inside error start.2
  missing := fun i now storage _ start held absent => by
    rw [start.2.storage] at held
    obtain rfl := Option.some.inj held
    refine rebuilt _ (start.2.stop start.1.2 fun chain onDisk _ => ?_)
    by_contra beyond
    obtain ⟨block,-,load⟩ := start.2.next parses start.1.1 onDisk (by omega)
    rw [absent] at load
    cases load
  refuse := fun i now storage block _ start held loaded refused => by
    rw [start.2.storage] at held
    obtain rfl := Option.some.inj held
    refine rebuilt _ ((start.2.refused refused).stop start.1.2 fun chain onDisk _ => ?_)
    by_contra beyond
    obtain ⟨found,next,load⟩ := start.2.next parses start.1.1 onDisk (by omega)
    rw [loaded] at load
    obtain rfl := Option.some.inj (Except.ok.inj load)
    rw [onDisk.accepted start.2.recorded.sound.configured next] at refused
    cases refused
  append := fun i now storage block inside start held loaded accepted after same => by
    subst same
    rw [start.2.storage] at held
    obtain rfl := Option.some.inj held
    have step := start.2.step parses start.1.1 loaded accepted
    exact ⟨step.1,⟨by omega,by omega⟩,step.2⟩
  finish := fun now start => rebuilt _ (start.2.stop le_rfl fun _ _ fits => fits)
  memory := fun _ _ start gone => by
    rw [start.2.storage] at gone
    cases gone
  crash := fun possible _ now stages => by
    rcases stages with h | h
    · exact crash possible now h.2.interrupted
    · exact crash possible now h

/-- A restart as a whole. `height` is what it reads as the stored height, at least one. -/
theorem rebuild_spec (parses : ext.ParseUndoesDump) (persistent : config.persistent = true)
    {node : Node} (built : construct ext config disk = .ok node) (faithful : Faithful config log)
    {allowed : Fate → Prop} {halt : Interrupt → Snapshot → Prop}
    (crash : allowed .crash → ∀ now, Interrupted config sent log now → halt .crash now)
    (illegible : ∀ e now, disk.loadChainHeight = .error e → Interrupted config sent log now →
      halt (.exception e) now)
    (unreadable : ∀ i e now height, disk.loadChainHeight = .ok height → 1 ≤ i → i < height.toNat →
      disk.loadBlock ext (UInt64.ofNat i) = .error e →
      Rebuilding ext config disk sent log i now → halt (.exception e) now) :
    Spec allowed (fun now => now = ⟨node,[],sent,log⟩) (recoverFromStorage ext)
      (fun _ now => ∃ height, disk.loadChainHeight = .ok height ∧
        Rebuilt ext config disk sent log (max 1 height.toNat) now) halt := by
  obtain ⟨sound,pool,⟨genesis,single⟩,held⟩ := construct_sound ext config built
  rw [persistent,if_pos rfl] at held
  have begun : Rebuilding ext config disk sent log 1 ⟨node,[],sent,log⟩ := by
    refine ⟨⟨sound,?_,faithful⟩,pool,held,rfl,rfl,.refl _,by simp [single],fun chain onDisk =>
      .inr (onDisk.start sound.configured single)⟩
    dsimp only
    rw [single]
    exact RecordedTo.single _ _
  refine recoverFromStorage_spec ?_ ?_ ?_ ?_
  · rintro now rfl gone
    rw [held] at gone
    cases gone
  · rintro now storage e rfl stored error
    rw [held] at stored
    obtain rfl := Option.some.inj stored
    exact illegible e _ error begun.interrupted
  · rintro now storage height rfl stored read low
    rw [held] at stored
    obtain rfl := Option.some.inj stored
    have small : max 1 height.toNat = 1 := max_eq_left (UInt64.le_iff_toNat_le.mp low)
    exact ⟨height,read,by rw [small]; exact begun.stop le_rfl fun _ _ fits => fits⟩
  · rintro now storage height rfl stored read high
    rw [held] at stored
    obtain rfl := Option.some.inj stored
    have positive : 1 < height.toNat := UInt64.lt_iff_toNat_lt.mp high
    refine ⟨_,_,Rebuilding.recovery parses (fun now rebuilt => ⟨height,read,?_⟩) crash
      fun i e now positive inside => unreadable i e now height read positive inside,
      ⟨le_rfl,positive.le⟩,begun⟩
    rw [max_eq_right positive.le]
    exact rebuilt

end
end TitanCore
