import TitanCore.NodeRecovery

/-! What survives a crash when every write that returns is durable. The disk holds the chain in
memory, or that chain without the block being accepted, through any number of lives. -/
namespace TitanCore

/-- What the disk, the peers and the history know of a node: the chain `durable`, which the
next start rebuilds. It continues `base`, the chain the disk held earlier. -/
structure Image (ext : Externals) (config : Config) (base : List Block) (disk : Storage)
    (sent : List Send) (log : List Event) (durable : List Block) : Prop where
  onDisk : OnDisk ext config disk durable
  height : ∃ height, disk.loadChainHeight = .ok height ∧ max 1 height.toNat = durable.length
  saved : ∀ block, .heightSaved block ∈ log → block ∈ durable
  recorded : RecordedTo config log durable
  faithful : Faithful config log
  sent : ∀ send ∈ sent, ∀ block, send.message.Carries block → block ∈ durable
  base : base <+: durable

/-- A running node between sections: its chain is on disk. -/
structure Persisted (ext : Externals) (config : Config) (base : List Block)
    (offered : Block → Prop) (now : Snapshot) : Prop where
  sound : Sound ext config now.node
  image : ∃ disk, now.node.storage = some disk ∧
    Image ext config base disk now.sent now.log now.node.blockchain.chain
  outbox : ∀ send ∈ now.outbox, ∀ block, send.message.Carries block →
    block ∈ now.node.blockchain.chain
  offered : ∀ block ∈ now.node.blockchain.chain.tail, offered block

/-- While a block is accepted the chain is one block ahead of the disk. -/
structure Ahead (ext : Externals) (config : Config) (base : List Block) (offered : Block → Prop)
    (block : Block) (now : Snapshot) : Prop where
  configured : Configured ext config now.node
  image : ∃ disk durable, now.node.storage = some disk ∧
    Image ext config base disk now.sent now.log durable ∧
    now.node.blockchain.chain = durable ++ [block] ∧ block.index.toNat = durable.length
  outbox : ∀ send ∈ now.outbox, ∀ block, send.message.Carries block →
    block ∈ now.node.blockchain.chain
  offered : ∀ block ∈ now.node.blockchain.chain.tail, offered block

/-- What a dead process leaves: nothing, or a disk that holds its chain but perhaps the last
block. -/
inductive Remains (ext : Externals) (config : Config) (base : List Block)
    (offered : Block → Prop) : Option Node → Storage → List Send → List Event → Prop
  | unborn {log : List Event} (first : base = []) (faithful : Faithful config log)
      (unsaved : ∀ block, .heightSaved block ∉ log) :
      Remains ext config base offered none Storage.empty [] log
  | dead {node : Node} {disk : Storage} {sent : List Send} {log : List Event}
      (configured : Configured ext config node) (durable : List Block)
      (image : Image ext config base disk sent log durable)
      (before : durable <+: node.blockchain.chain)
      (short : node.blockchain.chain.length ≤ durable.length + 1)
      (offers : ∀ block ∈ node.blockchain.chain.tail, offered block) :
      Remains ext config base offered (some node) disk sent log

theorem Storage.loadChainHeight_congr {disk disk' : Storage}
    (same : disk'.db.lookup Storage.heightKey = disk.db.lookup Storage.heightKey) :
    disk'.loadChainHeight = disk.loadChainHeight := by
  unfold Storage.loadChainHeight
  rw [same]

section
variable {ext : Externals} {config : Config} {base : List Block} {offered : Block → Prop}
  {disk disk' : Storage} {sent : List Send} {log : List Event} {durable : List Block}

theorem OnDisk.frame (onDisk : OnDisk ext config disk durable)
    (same : ∀ i, 1 ≤ i → i < durable.length →
      disk'.db.lookup (Storage.blockKey (UInt64.ofNat i)) =
        disk.db.lookup (Storage.blockKey (UInt64.ofNat i))) : OnDisk ext config disk' durable :=
  ⟨onDisk.grown,fun i block positive at_i => by
    rw [same i positive (List.getElem?_eq_some_iff.mp at_i).1]
    exact onDisk.blocks i block positive at_i⟩

namespace Image

/-- Writes elsewhere leave the image as it is. -/
theorem frame (image : Image ext config base disk sent log durable)
    (blocks : ∀ i, 1 ≤ i → i < durable.length →
      disk'.db.lookup (Storage.blockKey (UInt64.ofNat i)) =
        disk.db.lookup (Storage.blockKey (UInt64.ofNat i)))
    (height : disk'.db.lookup Storage.heightKey = disk.db.lookup Storage.heightKey) :
    Image ext config base disk' sent log durable :=
  { image with
    onDisk := image.onDisk.frame blocks
    height := by
      rw [Storage.loadChainHeight_congr height]
      exact image.height }

theorem record (image : Image ext config base disk sent log durable) (event : Event)
    (unsaved : ∀ block, event ≠ .heightSaved block) (faithful : Faithful config (log ++ [event])) :
    Image ext config base disk sent (log ++ [event]) durable :=
  { image with
    saved := fun block member => by
      rcases List.mem_append.mp member with old | new
      · exact image.saved block old
      · exact absurd (List.mem_singleton.mp new).symm (unsaved block)
    recorded := image.recorded.more _
    faithful }

theorem interrupted (image : Image ext config base disk sent log durable) {now : Snapshot}
    (interrupted : Interrupted config sent log now) :
    Image ext config base disk now.sent now.log durable := by
  obtain ⟨faithful,same,replayed⟩ := interrupted
  refine { image with saved := fun block member => ?_,recorded := ?_,faithful,sent := ?_ }
  · exact image.saved block ((replayed.mem_iff (by simp)).mp member)
  · obtain ⟨added,longer,-⟩ := replayed
    rw [longer]
    exact image.recorded.more added
  · rw [same]
    exact image.sent

end Image

theorem Persisted.refused {now : Snapshot} (persisted : Persisted ext config base offered now)
    {block : Block} (refused : (now.node.blockchain.addBlock ext block).1 = false) :
    Persisted ext config base offered (now.onNode (Node.addBlock ext block)) := by
  have same : (now.onNode (Node.addBlock ext block)).node.blockchain.chain =
    now.node.blockchain.chain := Blockchain.addBlock_refused ext _ _ refused
  refine ⟨persisted.sound.refused refused,?_,?_,?_⟩
  · rw [same]; exact persisted.image
  · rw [same]; exact persisted.outbox
  · rw [same]; exact persisted.offered

theorem Persisted.appended {now : Snapshot} (persisted : Persisted ext config base offered now)
    {block : Block} (offer : offered block)
    (accepted : (now.node.blockchain.addBlock ext block).1 = true) :
    Ahead ext config base offered block (now.onNode (Node.addBlock ext block)) ∧
    Lagging ext config block (now.node.addBlock ext block) := by
  obtain ⟨disk,held,image⟩ := persisted.image
  obtain ⟨valid,longer⟩ := Blockchain.addBlock_accepted ext _ _ accepted
  refine ⟨⟨persisted.sound.configured.addBlock block,
    ⟨disk,_,held,image,longer,valid.index⟩,?_,?_⟩,persisted.sound.appended accepted⟩
  · intro send member found carries
    change found ∈ (now.node.blockchain.addBlock ext block).2.chain
    rw [longer]
    exact List.mem_append_left _ (persisted.outbox send member found carries)
  · intro found member
    change found ∈ (now.node.blockchain.addBlock ext block).2.chain.tail at member
    rw [longer,List.tail_append_of_ne_nil now.node.blockchain.nonempty] at member
    rcases List.mem_append.mp member with old | new
    · exact persisted.offered found old
    · rw [List.mem_singleton.mp new]; exact offer

/-- Only chain, storage, log and the two lists of messages matter to `Ahead`. -/
theorem Ahead.frame {block : Block} {now later : Snapshot}
    (ahead : Ahead ext config base offered block now)
    (configured : Configured ext config later.node)
    (chain : later.node.blockchain.chain = now.node.blockchain.chain)
    (storage : later.node.storage = now.node.storage) (sent : later.sent = now.sent)
    (log : later.log = now.log) (outbox : later.outbox = now.outbox) :
    Ahead ext config base offered block later :=
  ⟨configured,by rw [chain,storage,sent,log]; exact ahead.image,
    by rw [chain,outbox]; exact ahead.outbox,by rw [chain]; exact ahead.offered⟩

theorem Ahead.applied {block : Block} {now : Snapshot}
    (ahead : Ahead ext config base offered block now) (lagging : Lagging ext config block now.node) :
    Ahead ext config base offered block ((now.onNode (Node.applyBlock block)).record
      (.applied block now.node.state.accounts now.node.blockchain.chain
        (now.node.state.applyBlock block).2.accounts)) ∧
    RecordedTo config (now.log ++ [.applied block now.node.state.accounts
      now.node.blockchain.chain (now.node.state.applyBlock block).2.accounts])
      now.node.blockchain.chain := by
  obtain ⟨disk,durable,held,image,chain,index⟩ := ahead.image
  obtain ⟨older,nonempty,split,ledger⟩ := lagging.ledger
  have same : durable = older := (List.append_inj' (chain.symm.trans split) rfl).1
  have unrecorded : Unrecorded ext config block now := ⟨ahead.configured,
    ⟨older,nonempty,split,ledger,by rw [← same]; exact image.recorded⟩,image.faithful⟩
  refine ⟨⟨lagging.applied.configured,⟨disk,durable,held,?_,chain,index⟩,ahead.outbox,
    ahead.offered⟩,unrecorded.applied.1⟩
  exact image.record _ (by simp) unrecorded.applied.2

structure Written (ext : Externals) (config : Config) (base : List Block)
    (offered : Block → Prop) (block : Block) (now : Snapshot) : Prop where
  ahead : Ahead ext config base offered block now
  sound : Sound ext config now.node
  recorded : RecordedTo config now.log now.node.blockchain.chain
  written : now.node.disk.db.lookup (Storage.blockKey block.index) = some (ext.dump block.toJson)

theorem Ahead.written {block : Block} {now : Snapshot} {storage after : Storage} {status : Status}
    (ahead : Ahead ext config base offered block now) (sound : Sound ext config now.node)
    (recorded : RecordedTo config now.log now.node.blockchain.chain)
    (held : now.node.storage = some storage)
    (done : storage.saveBlock ext block status = .ok after) :
    Written ext config base offered block (now.onNode (Node.withStorage after)) := by
  obtain ⟨disk,durable,stored,image,chain,index⟩ := ahead.image
  rw [held] at stored
  obtain rfl := Option.some.inj stored
  obtain ⟨written,others,height⟩ := Storage.saveBlock_ok done
  have configured := sound.configured.withStorage held after
  refine ⟨⟨configured,⟨after,durable,rfl,image.frame (fun i _ inside => others _ ?_) height,chain,
    index⟩,ahead.outbox,ahead.offered⟩,sound.withStorage held after,recorded,written⟩
  -- an older block has a smaller index
  intro same
  have bounded := block.index.toNat_lt
  have value := congrArg UInt64.toNat same
  rw [UInt64.toNat_ofNat',Nat.mod_eq_of_lt (by omega)] at value
  omega

theorem Written.counted {block : Block} {now : Snapshot} {storage after : Storage} {status : Status}
    (written : Written ext config base offered block now) (held : now.node.storage = some storage)
    (done : storage.saveChainHeight now.node.blockchain.getHeight status = .ok after) :
    Persisted ext config base offered
      ((now.onNode (Node.withStorage after)).record (.heightSaved block)) := by
  obtain ⟨disk,durable,stored,image,chain,index⟩ := written.ahead.image
  have onDisk := written.written
  rw [Node.disk,held] at onDisk
  rw [held] at stored
  obtain rfl := Option.some.inj stored
  obtain ⟨height,blocks⟩ := Storage.saveChainHeight_ok done
  have positive := List.length_pos_iff.mpr image.onDisk.nonempty
  refine ⟨written.sound.withStorage held after,⟨after,rfl,?_⟩,written.ahead.outbox,
    written.ahead.offered⟩
  constructor
  case onDisk =>
    refine ⟨⟨now.node.consensus,?_⟩,?_⟩
    · obtain ⟨origin,made,whole⟩ := written.sound.configured.grown
      exact ⟨origin,written.sound.configured.authorities,made,whole⟩
    · intro i found begins at_i
      change now.node.blockchain.chain[i]? = some found at at_i
      rw [chain] at at_i
      rw [blocks]
      rcases Blockchain.getElem?_push at_i with old | ⟨rfl,rfl⟩
      · exact image.onDisk.blocks i found begins old
      · rw [← index,UInt64.ofNat_toNat]
        exact onDisk
  case height =>
    refine ⟨_,Storage.loadChainHeight_record height,?_⟩
    rw [Blockchain.getHeight_toNat]
    change max 1 now.node.blockchain.chain.length = now.node.blockchain.chain.length
    rw [chain,List.length_append]
    exact max_eq_right (by omega)
  case saved =>
    intro found member
    change found ∈ now.node.blockchain.chain
    rw [chain]
    rcases List.mem_append.mp member with old | new
    · exact List.mem_append_left _ (image.saved found old)
    · obtain rfl := Event.heightSaved.inj (List.mem_singleton.mp new)
      simp
  case recorded => exact written.recorded.more _
  case faithful => exact image.faithful.other (by simp)
  case sent =>
    intro send member found carries
    change found ∈ now.node.blockchain.chain
    rw [chain]
    exact List.mem_append_left _ (image.sent send member found carries)
  case base =>
    change base <+: now.node.blockchain.chain
    rw [chain]
    exact image.base.trans (List.prefix_append _ _)

theorem Persisted.accountSaved {now : Snapshot} (persisted : Persisted ext config base offered now)
    {storage after : Storage} {addr : Address} {acct : AccountState} {status : Status}
    (held : now.node.storage = some storage)
    (done : storage.saveAccountState ext addr acct status = .ok after) :
    Persisted ext config base offered (now.onNode (Node.withStorage after)) := by
  obtain ⟨disk,stored,image⟩ := persisted.image
  rw [held] at stored
  obtain rfl := Option.some.inj stored
  obtain ⟨height,blocks⟩ := Storage.saveAccountState_ok done
  exact ⟨persisted.sound.withStorage held after,
    ⟨after,rfl,image.frame (fun _ _ _ => blocks _) height⟩,persisted.outbox,persisted.offered⟩

theorem Persisted.completed {now : Snapshot} (persisted : Persisted ext config base offered now)
    (block : Block) (disk : Option Storage) :
    Persisted ext config base offered (now.record (.completed block disk)) := by
  obtain ⟨storage,held,image⟩ := persisted.image
  exact ⟨persisted.sound,⟨storage,held,image.record _ (by simp) (image.faithful.other (by simp))⟩,
    persisted.outbox,persisted.offered⟩

theorem Persisted.remains {now : Snapshot} (persisted : Persisted ext config base offered now) :
    Remains ext config base offered (some now.node) now.node.disk now.sent now.log := by
  obtain ⟨disk,held,image⟩ := persisted.image
  rw [Node.disk,held]
  exact .dead persisted.sound.configured _ image List.prefix_rfl (by omega) persisted.offered

theorem Ahead.remains {block : Block} {now : Snapshot}
    (ahead : Ahead ext config base offered block now) :
    Remains ext config base offered (some now.node) now.node.disk now.sent now.log := by
  obtain ⟨disk,durable,held,image,chain,-⟩ := ahead.image
  rw [Node.disk,held]
  exact .dead ahead.configured durable image (by rw [chain]; exact List.prefix_append _ _)
    (by rw [chain]; simp) ahead.offered

/-- No write fails, but the process may die before any step. -/
def Calm (fate : Fate) : Prop := fate = .proceed ∨ fate = .crash

theorem Calm.no_failure {text : Bytes} (calm : Calm (.fail text)) : False := by
  rcases calm with impossible | impossible <;> cases impossible

end

section
variable (ext : Externals) (config : Config) (base : List Block) (offered : Block → Prop)

theorem Persisted.acceptance (orders : Nat → IterationOrder) (block : Block)
    (offer : offered block) :
    Acceptance ext Calm orders block
      (Process.afterwards (Persisted ext config base offered) (Remains ext config base offered))
      (Persisted ext config base offered)
      (fun now => Ahead ext config base offered block now ∧ Lagging ext config block now.node)
      (fun now => Ahead ext config base offered block now ∧ Settled ext config now.node ∧
        RecordedTo config now.log now.node.blockchain.chain)
      (fun now => Ahead ext config base offered block now ∧ Sound ext config now.node ∧
        RecordedTo config now.log now.node.blockchain.chain)
      (Written ext config base offered block) (Persisted ext config base offered)
      (Persisted ext config base offered) where
  refuse := fun _ persisted refused => persisted.refused refused
  append := fun _ persisted accepted => persisted.appended offer accepted
  apply := fun _ lagging => ⟨(lagging.1.applied lagging.2).1,lagging.2.applied,
    (lagging.1.applied lagging.2).2⟩
  clean := fun _ settled => ⟨settled.1.frame (settled.2.1.configured.frame _ _ _) rfl rfl rfl rfl
    rfl,settled.2.1.cleaned block orders,settled.2.2⟩
  save := fun _ _ _ _ cleaned held done => cleaned.1.written cleaned.2.1 cleaned.2.2 held done
  count := fun _ _ _ _ written held done => written.counted held done
  account := fun _ _ _ _ _ _ persisted held done => persisted.accountSaved held done
  complete := fun _ _ persisted _ => persisted.completed block _
  memory := fun _ cleaned gone => by
    obtain ⟨disk,_,held,-⟩ := cleaned.1.image
    rw [gone] at held
    cases held
  crash := fun _ _ stages => by
    rcases stages with h | h | h | h | h | h
    · exact h.remains
    · exact h.1.remains
    · exact h.1.remains
    · exact h.1.remains
    · exact h.ahead.remains
    · exact h.remains
  fail := fun _ possible => possible.no_failure.elim

theorem Persisted.stable (produce : ∀ now previous transactions clock block,
      Persisted ext config base offered now →
      createBlock ext now.node.nodeKeys previous transactions clock = .ok block → offered block) :
    Stable ext Calm offered (fun _ => True) (Persisted ext config base offered)
      (Process.afterwards (Persisted ext config base offered) (Remains ext config base offered)) where
  interrupt := fun _ _ persisted => persisted
  admission := fun tx _ persisted => ⟨(Sound.stable ext config).admission tx _ persisted.sound,
    persisted.image,persisted.outbox,persisted.offered⟩
  blame := fun text _ persisted => ⟨(Sound.stable ext config).blame text _ persisted.sound,
    persisted.image,persisted.outbox,persisted.offered⟩
  reply := fun recipient message now persisted sendable _ => by
    obtain ⟨disk,held,image⟩ := persisted.image
    refine ⟨persisted.sound,⟨disk,held,{ image with sent := ?_ }⟩,persisted.outbox,
      persisted.offered⟩
    intro send member block carries
    rcases List.mem_append.mp member with old | new
    · exact image.sent send old block carries
    · rw [List.mem_singleton.mp new] at carries
      exact sendable.carried carries
  ordinary := fun _ _ => trivial
  produce := fun now _ clock block persisted made => ⟨produce now _ _ clock block persisted made,trivial⟩
  accept := fun orders block offer =>
    ⟨_,_,_,_,_,Persisted.acceptance ext config base offered orders block offer⟩

variable {ext config base offered}

/-- The chain the next start rebuilds. -/
theorem Remains.image {held : Option Node} {disk : Storage} {sent : List Send} {log : List Event}
    (remains : Remains ext config base offered held disk sent log) {node : Node}
    (built : construct ext config disk = .ok node) :
    ∃ durable, Image ext config base disk sent log durable ∧
      ∀ block ∈ durable.tail, offered block := by
  cases remains with
  | unborn first faithful unsaved =>
    obtain ⟨sound,-,⟨genesis,single⟩,-⟩ := construct_sound ext config built
    obtain ⟨origin,created,grown⟩ := sound.configured.grown
    rw [single] at grown
    refine ⟨[genesis],⟨⟨⟨_,origin,sound.configured.authorities,created,grown⟩,?_⟩,
      ⟨0,Storage.loadChainHeight_absent rfl,rfl⟩,fun block member => (unsaved block member).elim,
      RecordedTo.single _ _,faithful,by simp,by simp [first]⟩,by simp⟩
    intro i block positive at_i
    rw [List.getElem?_eq_none (by simpa using positive)] at at_i
    cases at_i
  | dead configured durable image before short offers =>
    refine ⟨durable,image,fun block member => offers block ?_⟩
    obtain ⟨newer,whole⟩ := before
    rw [← whole,List.tail_append_of_ne_nil image.onDisk.nonempty]
    exact List.mem_append_left _ member

theorem Remains.interrupted {held : Option Node} {disk : Storage} {sent : List Send}
    {log : List Event} (remains : Remains ext config base offered held disk sent log)
    {now : Snapshot} (interrupted : Interrupted config sent log now) :
    Remains ext config base offered held disk now.sent now.log := by
  cases remains with
  | unborn first faithful unsaved =>
    obtain ⟨faithful,same,replayed⟩ := interrupted
    rw [same]
    exact .unborn first faithful fun block member =>
      unsaved block ((replayed.mem_iff (by simp)).mp member)
  | dead configured durable image before short offers =>
    exact .dead configured durable (image.interrupted interrupted) before short offers

theorem Image.rebuilt {disk : Storage} {sent : List Send} {log : List Event}
    {durable : List Block} (image : Image ext config base disk sent log durable) {height : UInt64}
    (read : disk.loadChainHeight = .ok height) {now : Snapshot}
    (rebuilt : Rebuilt ext config disk sent log (max 1 height.toNat) now) :
    now.node.blockchain.chain = durable := by
  obtain ⟨height',read',length⟩ := image.height
  obtain rfl := Except.ok.inj (read.symm.trans read')
  have bounded := rebuilt.bounded
  rw [length] at bounded
  exact ((rebuilt.contains durable image.onDisk length.ge).eq_of_length_le bounded).symm

theorem Image.persisted {disk : Storage} {sent : List Send} {log : List Event}
    {durable : List Block} (image : Image ext config base disk sent log durable)
    (offers : ∀ block ∈ durable.tail, offered block) {height : UInt64}
    (read : disk.loadChainHeight = .ok height) {now : Snapshot}
    (rebuilt : Rebuilt ext config disk sent log (max 1 height.toNat) now) :
    Persisted ext config base offered now := by
  have chain := image.rebuilt read rebuilt
  refine ⟨rebuilt.recorded.sound,⟨disk,rebuilt.storage,?_⟩,?_,?_⟩
  · rw [chain]
    exact image.interrupted ⟨rebuilt.recorded.faithful,rebuilt.sent,rebuilt.replayed⟩
  · rw [rebuilt.outbox]
    simp
  · rw [chain]
    exact offers

theorem Image.readable {disk : Storage} {sent : List Send} {log : List Event}
    {durable : List Block} (image : Image ext config base disk sent log durable)
    (parses : ext.ParseUndoesDump) {height : UInt64} (read : disk.loadChainHeight = .ok height)
    {i : Nat} (positive : 1 ≤ i) (inside : i < height.toNat) :
    ∃ block, disk.loadBlock ext (UInt64.ofNat i) = .ok (some block) := by
  obtain ⟨height',read',length⟩ := image.height
  obtain rfl := Except.ok.inj (read.symm.trans read')
  exact ⟨_,image.onDisk.load parses positive (List.getElem?_eq_getElem (by omega))⟩

/-- So the replay cannot fail; it can only be cut short by a crash. -/
theorem Image.recovery_spec {disk : Storage} {sent : List Send} {log : List Event}
    {durable : List Block} (image : Image ext config base disk sent log durable)
    (parses : ext.ParseUndoesDump) (persistent : config.persistent = true) {node : Node}
    (built : construct ext config disk = .ok node) {allowed : Fate → Prop}
    {halt : Interrupt → Snapshot → Prop}
    (crash : allowed .crash → ∀ now, Interrupted config sent log now → halt .crash now) :
    Spec allowed (fun now => now = ⟨node,[],sent,log⟩) (recoverFromStorage ext)
      (fun _ now => ∃ height, disk.loadChainHeight = .ok height ∧
        Rebuilt ext config disk sent log (max 1 height.toNat) now) halt := by
  refine rebuild_spec parses persistent built image.faithful crash (fun e _ illegible _ => ?_)
    fun i e _ height read positive inside unreadable _ => ?_
  · obtain ⟨_,read,-⟩ := image.height
    rw [read] at illegible
    cases illegible
  · obtain ⟨block,loaded⟩ := image.readable parses read positive inside
    rw [loaded] at unreadable
    cases unreadable

theorem Persisted.lasting (parses : ext.ParseUndoesDump) (persistent : config.persistent = true)
    (produce : ∀ now previous transactions clock block, Persisted ext config base offered now →
      createBlock ext now.node.nodeKeys previous transactions clock = .ok block → offered block) :
    Process.Lasting ext config Calm offered (fun _ => True) (Persisted ext config base offered)
      (Remains ext config base offered) where
  stable := Persisted.stable ext config base offered produce
  boot := fun held disk sent log node remains built => by
    obtain ⟨durable,image,offers⟩ := remains.image built
    refine Spec.consequence (image.recovery_spec parses persistent built
      fun _ _ interrupted => remains.interrupted interrupted) (fun _ h => h) fun _ now outcome => ?_
    obtain ⟨height,read,rebuilt⟩ := outcome
    exact image.persisted offers read rebuilt
  kill := fun _ persisted => persisted.remains
  queue := fun now send persisted sendable _ => by
    refine ⟨persisted.sound,persisted.image,fun other member block carries => ?_,persisted.offered⟩
    rcases List.mem_append.mp member with old | new
    · exact persisted.outbox other old block carries
    · rw [List.mem_singleton.mp new] at carries
      exact sendable.carried carries
  broadcast := fun now position send persisted found => by
    obtain ⟨disk,held,image⟩ := persisted.image
    refine ⟨persisted.sound,⟨disk,held,{ image with sent := ?_ }⟩,fun other member =>
      persisted.outbox other (List.mem_of_mem_eraseIdx member),persisted.offered⟩
    intro other member block carries
    rcases List.mem_append.mp member with old | new
    · exact image.sent other old block carries
    · rw [List.mem_singleton.mp new] at carries
      exact persisted.outbox send (List.mem_of_getElem? found) block carries

/-- The accounts a node had when its chain was `chain`: the allocations at the start, later
what the application of the last block left. -/
def AccountsAt (config : Config) (log : List Event) (chain : List Block) (accounts : Accounts) :
    Prop :=
  (chain.length = 1 ∧ accounts = (StateManager.create config.genesisAllocations).accounts) ∨
    ∃ block before, .applied block before chain accounts ∈ log

theorem Image.accounts {disk : Storage} {sent : List Send} {log : List Event}
    {durable : List Block} (image : Image ext config base disk sent log durable)
    (accounts : Accounts) :
    AccountsAt config log durable accounts ↔
      accounts = ledgerOf config.genesisAllocations durable := by
  constructor
  · rintro (⟨single,rfl⟩ | ⟨block,before,member⟩)
    · obtain ⟨genesis,rfl⟩ := List.length_eq_one_iff.mp single
      rfl
    · obtain ⟨_,_,_,_,after⟩ := image.faithful _ _ _ _ member
      exact after
  · rintro rfl
    rcases List.eq_nil_or_concat durable with rfl | ⟨older,block,rfl⟩
    · exact absurd rfl image.onDisk.nonempty
    · rw [List.concat_eq_append] at image ⊢
      cases older with
      | nil => exact .inl ⟨rfl,rfl⟩
      | cons first older =>
        obtain ⟨after,member⟩ := image.recorded (first :: older) block [] rfl (by simp)
        obtain ⟨_,_,_,_,same⟩ := image.faithful _ _ _ _ member
        rw [← same]
        exact .inr ⟨block,_,member⟩

/-- The constructor depends on the configuration only. -/
theorem OnDisk.construct {disk : Storage} {durable : List Block}
    (onDisk : OnDisk ext config disk durable) (any : Storage) :
    ∃ node, construct ext config any = .ok node := by
  obtain ⟨consensus,genesis,authorities,created,-⟩ := onDisk.grown
  have nonempty := consensus.nonempty
  rw [authorities] at nonempty
  simp only [TitanCore.construct,PoAConsensus.create,dif_pos nonempty,Blockchain.create,created,
    ok_bind]
  exact ⟨_,rfl⟩

/-- What a restart finds, if it is not interrupted. -/
theorem Image.reboot (parses : ext.ParseUndoesDump) (persistent : config.persistent = true)
    {held : Option Node} {disk : Storage} {sent : List Send} {log : List Event}
    {durable : List Block} (image : Image ext config base disk sent log durable) {fates : List Fate}
    (calm : ∀ fate ∈ fates, Calm fate) {now : Snapshot}
    (up : (Process.down held disk sent log).boot ext config fates = .up now) :
    now.node.blockchain.chain = durable ∧
      now.node.state.accounts = ledgerOf config.genesisAllocations durable ∧ now.node.storage = some disk := by
  obtain ⟨node,built⟩ := image.onDisk.construct disk
  have spec : Spec Calm _ _ _ (fun _ _ => True) :=
    image.recovery_spec parses persistent built fun _ _ _ => trivial
  rcases Process.boot_outcome ext config held built spec calm with
    ⟨after,booted,height,read,rebuilt⟩ | ⟨_,_,down,-⟩
  · rw [up] at booted
    obtain rfl := Process.up.inj booted
    have chain := image.rebuilt read rebuilt
    exact ⟨chain,by rw [rebuilt.recorded.sound.ledger,chain],rebuilt.storage⟩
  · rw [up] at down
    cases down

theorem Image.returns (parses : ext.ParseUndoesDump) (persistent : config.persistent = true)
    (held : Option Node) {disk : Storage} {sent : List Send} {log : List Event}
    {durable : List Block} (image : Image ext config base disk sent log durable) :
    ∃ now, (Process.down held disk sent log).boot ext config [] = .up now := by
  obtain ⟨node,built⟩ := image.onDisk.construct disk
  have spec : Spec (fun _ => False) _ _ _ (fun _ _ => False) :=
    image.recovery_spec parses persistent built fun impossible => impossible.elim
  rcases Process.boot_outcome ext config held built spec (List.forall_mem_nil _) with
    ⟨after,booted,-⟩ | ⟨_,_,_,impossible⟩
  · exact ⟨after,booted⟩
  · exact impossible.elim

end

/-- Every reachable state of a node whose writes never fail. -/
theorem run_persisted (ext : Externals) (config : Config) (parses : ext.ParseUndoesDump)
    (persistent : config.persistent = true) (actions : List Action)
    (calm : ∀ action ∈ actions, ∀ fate ∈ action.fates, Calm fate) :
    (Process.run ext config actions).Holds (Persisted ext config [] fun _ => True)
      (Remains ext config [] fun _ => True) :=
  (Persisted.lasting parses persistent fun _ _ _ _ _ _ _ => trivial).run_holds
    (.unborn rfl (fun _ _ _ _ member => by simp at member) fun _ member => by simp at member)
    actions calm

/-- After a crash anywhere, the next start returns when it is left alone, and whenever it
returns it has rebuilt the chain held at the crash, perhaps without its last block, with every
block whose height was saved, and the accounts that belong to that chain. -/
theorem recovers_prefix (ext : Externals) (config : Config) (parses : ext.ParseUndoesDump)
    (persistent : config.persistent = true) (actions : List Action)
    (calm : ∀ action ∈ actions, ∀ fate ∈ action.fates, Calm fate) (held : Node) (disk : Storage)
    (sent : List Send) (log : List Event)
    (crashed : Process.run ext config actions = .down (some held) disk sent log) :
    (∃ now, Process.run ext config (actions ++ [.boot []]) = .up now) ∧
    ∀ fates, (∀ fate ∈ fates, Calm fate) → ∀ now,
      Process.run ext config (actions ++ [.boot fates]) = .up now →
      now.node.blockchain.chain <+: held.blockchain.chain ∧
      held.blockchain.chain.length ≤ now.node.blockchain.chain.length + 1 ∧
      (∀ block, .heightSaved block ∈ log → block ∈ now.node.blockchain.chain) ∧
      ∀ accounts, AccountsAt config log now.node.blockchain.chain accounts ↔
        accounts = now.node.state.accounts := by
  have holds := run_persisted ext config parses persistent actions calm
  rw [crashed] at holds
  cases holds with
  | dead _ durable image before short _ =>
    refine ⟨?_,fun fates calmly now up => ?_⟩
    · rw [Process.run_concat,crashed]
      exact image.returns parses persistent (some held)
    · rw [Process.run_concat,crashed] at up
      obtain ⟨chain,accounts,-⟩ := image.reboot parses persistent calmly up
      rw [chain,accounts]
      exact ⟨before,short,image.saved,image.accounts⟩

def savedBlocks (log : List Event) : List Block :=
  log.filterMap fun | .heightSaved block => some block | _ => none

theorem mem_savedBlocks {log : List Event} {block : Block} :
    block ∈ savedBlocks log ↔ .heightSaved block ∈ log := by
  simp only [savedBlocks,List.mem_filterMap]
  constructor
  · rintro ⟨event,member,same⟩
    cases event <;> cases same
    exact member
  · exact fun member => ⟨_,member,rfl⟩

/-- The process dies between the second block and its height. -/
def Reference.tornRun : List Action := [.boot []] ++ [deliver first []] ++
  [deliver second [.proceed,.proceed,.proceed,.proceed,.crash]]

open Reference in
theorem recovers_prefix_torn : ∃ held disk sent log now,
    Process.run libraries (config observerKeys ∅ true) tornRun = .down (some held) disk sent log ∧
    held.blockchain.chain.length = 3 ∧
    Process.run libraries (config observerKeys ∅ true) (tornRun ++ [.boot []]) = .up now ∧
    now.node.blockchain.chain <+: held.blockchain.chain ∧ first ∈ now.node.blockchain.chain := by
  have ran : (Process.run libraries (config observerKeys ∅ true) tornRun).held?.any
        (fun held => held.blockchain.chain.length = 3) = true ∧
      first ∈ savedBlocks (Process.run libraries (config observerKeys ∅ true) tornRun).log := by
    rw [tornRun,run_deliver second_fits,run_deliver first_fits]
    decide +kernel
  obtain ⟨held,dead,three⟩ := (Option.any_eq_true _ _).mp ran.1
  obtain ⟨disk,sent,state⟩ := Process.down_of_held dead
  obtain ⟨⟨now,up⟩,outcome⟩ := recovers_prefix libraries (config observerKeys ∅ true)
    libraries_parse rfl tornRun (by simp [tornRun,deliver,Action.fates,Calm]) held disk sent _ state
  obtain ⟨before,-,saved,-⟩ := outcome [] (by simp) now up
  exact ⟨held,disk,sent,_,now,state,of_decide_eq_true three,up,before,
    saved first (mem_savedBlocks.mp ran.2)⟩
end TitanCore
