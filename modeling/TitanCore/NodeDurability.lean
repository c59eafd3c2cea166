import TitanCore.NodePersistence

/-! Durability when writes may fail. An exception of a write is swallowed while the chain in
memory has already grown, so a block can be counted on disk whose ancestors are not there. A
completed block survives every later restart when its ancestors were. -/
namespace TitanCore

/-- Every record can be read back. -/
structure Legible (ext : Externals) (disk : Storage) : Prop where
  blocks : ∀ index, ∃ found, disk.loadBlock ext index = .ok found
  height : ∃ height, disk.loadChainHeight = .ok height

def Ancestors (ext : Externals) (config : Config) (disk : Storage) (block : Block) : Prop :=
  ∃ consensus older, consensus.authorities = config.authorities ∧ OnDisk ext config disk older ∧
    Blockchain.Extends ext (some consensus) older block

/-- The disk holds a chain of `length` blocks and counts at least as many. -/
structure Kept (ext : Externals) (config : Config) (disk : Storage) (length : Nat) : Prop where
  chain : ∃ chain, OnDisk ext config disk chain ∧ chain.length = length
  height : ∃ height, disk.loadChainHeight = .ok height ∧ length ≤ height.toNat

/-- What the disk owes to the history, for a chain of `height` blocks in memory. -/
structure Promised (ext : Externals) (config : Config) (disk : Storage) (log : List Event)
    (height : Nat) : Prop where
  legible : Legible ext disk
  kept : ∀ block snapshot, .completed block (some snapshot) ∈ log →
    Ancestors ext config snapshot block →
    block.index.toNat + 1 ≤ height ∧ Kept ext config disk (block.index.toNat + 1)

theorem Storage.loadBlock_congr {ext : Externals} {disk disk' : Storage} {index : UInt64}
    (same : disk'.db.lookup (Storage.blockKey index) = disk.db.lookup (Storage.blockKey index)) :
    disk'.loadBlock ext index = disk.loadBlock ext index := by
  unfold Storage.loadBlock
  rw [same]

section
variable {ext : Externals} {config : Config} {disk disk' : Storage} {log : List Event}
  {height : Nat}

theorem Kept.frame {length : Nat} (kept : Kept ext config disk length)
    (blocks : ∀ i, 1 ≤ i → i < length →
      disk'.db.lookup (Storage.blockKey (UInt64.ofNat i)) =
        disk.db.lookup (Storage.blockKey (UInt64.ofNat i)))
    (height : ∃ height, disk'.loadChainHeight = .ok height ∧ length ≤ height.toNat) :
    Kept ext config disk' length := by
  obtain ⟨chain,onDisk,rfl⟩ := kept.chain
  exact ⟨⟨chain,onDisk.frame blocks,rfl⟩,height⟩

namespace Promised

theorem weaken (promised : Promised ext config disk log height) {larger : Nat}
    (more : height ≤ larger) : Promised ext config disk log larger :=
  ⟨promised.legible,fun block snapshot member ancestors => by
    obtain ⟨bound,kept⟩ := promised.kept block snapshot member ancestors
    exact ⟨bound.trans more,kept⟩⟩

theorem record (promised : Promised ext config disk log height) {event : Event}
    (other : ∀ block disk, event ≠ .completed block disk) :
    Promised ext config disk (log ++ [event]) height :=
  ⟨promised.legible,fun block snapshot member ancestors => by
    rcases List.mem_append.mp member with old | new
    · exact promised.kept block snapshot old ancestors
    · exact absurd (List.mem_singleton.mp new).symm (other _ _)⟩

/-- The write of a block that is not below `height`. -/
theorem blockSaved (parses : ext.ParseUndoesDump) (promised : Promised ext config disk log height)
    {block : Block} (index : height ≤ block.index.toNat) {status : Status}
    (done : disk.saveBlock ext block status = .ok disk') :
    Promised ext config disk' log height := by
  obtain ⟨written,others,stored⟩ := Storage.saveBlock_ok done
  constructor
  case legible =>
    refine ⟨fun i => ?_,?_⟩
    · by_cases same : i = block.index
      · rw [same]
        exact ⟨_,Storage.loadBlock_record parses written⟩
      · rw [Storage.loadBlock_congr (others i same)]
        exact promised.legible.blocks i
    · rw [Storage.loadChainHeight_congr stored]
      exact promised.legible.height
  case kept =>
    intro found snapshot member ancestors
    obtain ⟨bound,kept⟩ := promised.kept found snapshot member ancestors
    refine ⟨bound,kept.frame (fun i _ inside => others _ fun same => ?_) ?_⟩
    · have value := congrArg UInt64.toNat same
      have := block.index.toNat_lt
      rw [UInt64.toNat_ofNat',Nat.mod_eq_of_lt (by omega)] at value
      omega
    · rw [Storage.loadChainHeight_congr stored]
      exact kept.height

/-- The write of a height that is not below `height`. -/
theorem heightSaved (promised : Promised ext config disk log height) {stored : UInt64}
    (larger : height ≤ stored.toNat) {status : Status}
    (done : disk.saveChainHeight stored status = .ok disk') :
    Promised ext config disk' log height := by
  obtain ⟨written,blocks⟩ := Storage.saveChainHeight_ok done
  have read := Storage.loadChainHeight_record written
  refine ⟨⟨fun i => ?_,_,read⟩,fun found snapshot member ancestors => ?_⟩
  · rw [Storage.loadBlock_congr (blocks i)]
    exact promised.legible.blocks i
  · obtain ⟨bound,kept⟩ := promised.kept found snapshot member ancestors
    exact ⟨bound,kept.frame (fun _ _ _ => blocks _) ⟨stored,read,bound.trans larger⟩⟩

theorem accountSaved (promised : Promised ext config disk log height) {addr : Address}
    {acct : AccountState} {status : Status}
    (done : disk.saveAccountState ext addr acct status = .ok disk') :
    Promised ext config disk' log height := by
  obtain ⟨stored,blocks⟩ := Storage.saveAccountState_ok done
  have read := Storage.loadChainHeight_congr stored
  refine ⟨⟨fun i => ?_,by rw [read]; exact promised.legible.height⟩,
    fun found snapshot member ancestors => ?_⟩
  · rw [Storage.loadBlock_congr (blocks i)]
    exact promised.legible.blocks i
  · obtain ⟨bound,kept⟩ := promised.kept found snapshot member ancestors
    exact ⟨bound,kept.frame (fun _ _ _ => blocks _) (by rw [read]; exact kept.height)⟩

/-- A completed block joins the promise when its ancestors are on disk. -/
theorem complete (promised : Promised ext config disk log height) {block : Block}
    (index : block.index.toNat + 1 = height)
    (written : disk.db.lookup (Storage.blockKey block.index) = some (ext.dump block.toJson))
    (counted : ∃ stored, disk.loadChainHeight = .ok stored ∧ height ≤ stored.toNat) :
    Promised ext config disk (log ++ [.completed block (some disk)]) height := by
  refine ⟨promised.legible,fun found snapshot member ancestors => ?_⟩
  rcases List.mem_append.mp member with old | new
  · exact promised.kept found snapshot old ancestors
  · obtain ⟨rfl,same⟩ := Event.completed.inj (List.mem_singleton.mp new)
    obtain rfl := Option.some.inj same
    obtain ⟨consensus,older,authorities,onDisk,valid⟩ := ancestors
    obtain ⟨consensus',genesis,authorities',created,grown⟩ := onDisk.grown
    refine ⟨index.le,⟨older ++ [found],⟨⟨consensus,genesis,authorities,created,?_⟩,?_⟩,?_⟩,?_⟩
    · rw [PoAConsensus.authorities_injective (authorities.trans authorities'.symm)] at valid ⊢
      exact .append grown valid
    · intro i block positive at_i
      rcases Blockchain.getElem?_push at_i with old | ⟨rfl,rfl⟩
      · exact onDisk.blocks i block positive old
      · rw [← valid.index,UInt64.ofNat_toNat]
        exact written
    · rw [List.length_append,← valid.index]
      rfl
    · rw [index]
      exact counted

end Promised

def Secured (ext : Externals) (config : Config) (now : Snapshot) : Prop :=
  ∃ disk, now.node.storage = some disk ∧
    Promised ext config disk now.log now.node.blockchain.chain.length

/-- One block is on the chain that the promise does not reach. -/
def Unsecured (ext : Externals) (config : Config) (block : Block) (now : Snapshot) : Prop :=
  now.node.blockchain.chain.length = block.index.toNat + 1 ∧
    ∃ disk, now.node.storage = some disk ∧ Promised ext config disk now.log block.index.toNat

def Counted (ext : Externals) (config : Config) (block : Block) (now : Snapshot) : Prop :=
  now.node.blockchain.chain.length = block.index.toNat + 1 ∧
    ∃ disk, now.node.storage = some disk ∧
      Promised ext config disk now.log (block.index.toNat + 1) ∧
      disk.db.lookup (Storage.blockKey block.index) = some (ext.dump block.toJson) ∧
      ∃ stored, disk.loadChainHeight = .ok stored ∧ block.index.toNat + 1 ≤ stored.toNat

def Owed (ext : Externals) (config : Config) (_ : Option Node) (disk : Storage) (_ : List Send)
    (log : List Event) : Prop :=
  ∃ height, Promised ext config disk log height

theorem Secured.owed {now : Snapshot} (secured : Secured ext config now) :
    Owed ext config (some now.node) now.node.disk now.sent now.log := by
  obtain ⟨disk,stored,promised⟩ := secured
  rw [Node.disk,stored]
  exact ⟨_,promised⟩

theorem Unsecured.secured {block : Block} {now : Snapshot}
    (unsecured : Unsecured ext config block now) : Secured ext config now := by
  obtain ⟨length,disk,held,promised⟩ := unsecured
  exact ⟨disk,held,promised.weaken (by omega)⟩

theorem Counted.secured {block : Block} {now : Snapshot} (counted : Counted ext config block now) :
    Secured ext config now := by
  obtain ⟨length,disk,held,promised,-⟩ := counted
  exact ⟨disk,held,by rw [length]; exact promised⟩

end

section
variable {ext : Externals} (config : Config)

theorem Secured.acceptance (parses : ext.ParseUndoesDump) (orders : Nat → IterationOrder)
    (block : Block) :
    Acceptance ext (fun _ => True) orders block
      (Process.afterwards (Secured ext config) (Owed ext config)) (Secured ext config)
      (Unsecured ext config block) (Unsecured ext config block) (Unsecured ext config block)
      (fun now => Unsecured ext config block now ∧
        now.node.disk.db.lookup (Storage.blockKey block.index) = some (ext.dump block.toJson))
      (Counted ext config block) (Secured ext config) where
  refuse := fun now secured refused => by
    obtain ⟨disk,held,promised⟩ := secured
    refine ⟨disk,held,?_⟩
    change Promised ext config disk now.log (now.node.blockchain.addBlock ext block).2.chain.length
    rw [Blockchain.addBlock_refused ext _ _ refused]
    exact promised
  append := fun now secured accepted => by
    obtain ⟨disk,held,promised⟩ := secured
    obtain ⟨valid,longer⟩ := Blockchain.addBlock_accepted ext _ _ accepted
    refine ⟨?_,disk,held,by rw [valid.index]; exact promised⟩
    change (now.node.blockchain.addBlock ext block).2.chain.length = block.index.toNat + 1
    rw [longer,List.length_append,valid.index]
    rfl
  apply := fun now unsecured => by
    obtain ⟨length,disk,held,promised⟩ := unsecured
    exact ⟨length,disk,held,promised.record (by simp)⟩
  clean := fun _ unsecured => unsecured
  save := fun now storage status after unsecured held done => by
    obtain ⟨length,disk,stored,promised⟩ := unsecured
    rw [held] at stored
    obtain rfl := Option.some.inj stored
    exact ⟨⟨length,after,rfl,promised.blockSaved parses le_rfl done⟩,
      (Storage.saveBlock_ok done).1⟩
  count := fun now storage status after unsecured held done => by
    obtain ⟨⟨length,disk,stored,promised⟩,written⟩ := unsecured
    rw [Node.disk,held] at written
    rw [held] at stored
    obtain rfl := Option.some.inj stored
    have whole : block.index.toNat + 1 = now.node.blockchain.getHeight.toNat := by
      rw [Blockchain.getHeight_toNat,length]
    obtain ⟨counted,blocks⟩ := Storage.saveChainHeight_ok done
    refine ⟨length,after,rfl,((promised.heightSaved (by omega) done).weaken (by omega)).record
      (by simp),?_,_,Storage.loadChainHeight_record counted,whole.le⟩
    rw [blocks]
    exact written
  account := fun now storage addr acct status after counted held done => by
    obtain ⟨length,disk,stored,promised,written,height⟩ := counted
    rw [held] at stored
    obtain rfl := Option.some.inj stored
    obtain ⟨same,blocks⟩ := Storage.saveAccountState_ok done
    exact ⟨length,after,rfl,promised.accountSaved done,by rw [blocks]; exact written,
      by rw [Storage.loadChainHeight_congr same]; exact height⟩
  complete := fun now storage counted held => by
    obtain ⟨length,disk,stored,promised,written,height⟩ := counted
    rw [held] at stored
    obtain rfl := Option.some.inj stored
    refine ⟨storage,held,?_⟩
    change Promised ext config storage _ now.node.blockchain.chain.length
    rw [length]
    exact promised.complete rfl written height
  memory := fun now unsecured gone => by
    obtain ⟨length,disk,stored,promised⟩ := unsecured
    rw [gone] at stored
    cases stored
  crash := fun _ now stages => by
    rcases stages with h | h | h | h | h | h
    · exact h.owed
    · exact h.secured.owed
    · exact h.secured.owed
    · exact h.secured.owed
    · exact h.1.secured.owed
    · exact h.secured.owed
  fail := fun _ _ now _ stages => by
    rcases stages with h | h | h
    · exact h.secured
    · exact h.1.secured
    · exact h.secured

def Durable (ext : Externals) (config : Config) (now : Snapshot) : Prop :=
  Recorded ext config now ∧ Secured ext config now

def Owes (ext : Externals) (config : Config) (held : Option Node) (disk : Storage)
    (sent : List Send) (log : List Event) : Prop :=
  Faithful config log ∧ Owed ext config held disk sent log

theorem Promised.replayed {disk : Storage} {log : List Event} {height : Nat}
    (promised : Promised ext config disk log height) {later : List Event}
    (replayed : Replayed log later) : Promised ext config disk later height :=
  ⟨promised.legible,fun block snapshot member =>
    promised.kept block snapshot ((replayed.mem_iff (by simp)).mp member)⟩

theorem Promised.rebuilt {disk : Storage} {sent : List Send} {log : List Event} {bound : Nat}
    (promised : Promised ext config disk log bound) {height : UInt64}
    (read : disk.loadChainHeight = .ok height) {now : Snapshot}
    (rebuilt : Rebuilt ext config disk sent log (max 1 height.toNat) now) :
    Promised ext config disk now.log now.node.blockchain.chain.length := by
  refine ⟨promised.legible,fun block snapshot member ancestors => ?_⟩
  have old := (rebuilt.replayed.mem_iff (by simp)).mp member
  obtain ⟨-,kept⟩ := promised.kept block snapshot old ancestors
  obtain ⟨chain,onDisk,length⟩ := kept.chain
  obtain ⟨height',read',fits⟩ := kept.height
  obtain rfl := Except.ok.inj (read.symm.trans read')
  have before := rebuilt.contains chain onDisk (by rw [length]; exact le_max_of_le_right fits)
  exact ⟨length ▸ before.length_le,kept⟩

/-- A replay from a legible disk can only be cut short by a crash. -/
theorem Promised.recovery_spec (parses : ext.ParseUndoesDump)
    (persistent : config.persistent = true) {disk : Storage} {log : List Event} {bound : Nat}
    (promised : Promised ext config disk log bound) (faithful : Faithful config log)
    (sent : List Send) {node : Node}
    (built : construct ext config disk = .ok node) {allowed : Fate → Prop}
    {halt : Interrupt → Snapshot → Prop}
    (crash : allowed .crash → ∀ now, Interrupted config sent log now → halt .crash now) :
    Spec allowed (fun now => now = ⟨node,[],sent,log⟩) (recoverFromStorage ext)
      (fun _ now => Durable ext config now ∧ Replayed log now.log) halt := by
  refine Spec.consequence (rebuild_spec parses persistent built faithful crash
    (fun e _ illegible _ => ?_) fun i e _ height read positive inside unreadable _ => ?_)
    (fun _ h => h) fun _ now outcome => ?_
  · obtain ⟨_,read⟩ := promised.legible.height
    rw [read] at illegible
    cases illegible
  · obtain ⟨_,loaded⟩ := promised.legible.blocks (UInt64.ofNat i)
    rw [loaded] at unreadable
    cases unreadable
  · obtain ⟨height,read,rebuilt⟩ := outcome
    exact ⟨⟨rebuilt.recorded,disk,rebuilt.storage,promised.rebuilt config read rebuilt⟩,
      rebuilt.replayed⟩

theorem Durable.lasting (parses : ext.ParseUndoesDump) (persistent : config.persistent = true) :
    Process.Lasting ext config (fun _ => True) (fun _ => True) (fun _ => True) (Durable ext config)
      (Owes ext config) where
  stable := {
    interrupt := fun _ _ durable => durable
    admission := fun tx now durable =>
      ⟨(Recorded.lasting ext config).stable.admission tx now durable.1,durable.2⟩
    blame := fun text now durable =>
      ⟨(Recorded.lasting ext config).stable.blame text now durable.1,durable.2⟩
    reply := fun recipient message now durable sendable _ =>
      ⟨(Recorded.lasting ext config).stable.reply recipient message now durable.1 sendable trivial,
        durable.2⟩
    ordinary := fun _ _ => trivial
    produce := fun _ _ _ _ _ _ => ⟨trivial,trivial⟩
    accept := fun orders block _ => ⟨_,_,_,_,_,(Recorded.acceptance ext config orders block).both
      (Secured.acceptance config parses orders block) fun reason _ recorded secured => by
        cases reason <;> exact ⟨recorded,secured⟩⟩ }
  boot := fun held disk sent log node owes built => by
    obtain ⟨faithful,height,promised⟩ := owes
    exact Spec.consequence (promised.recovery_spec config parses persistent faithful sent built
      fun _ now interrupted => ⟨interrupted.faithful,height,
        promised.replayed config interrupted.replayed⟩) (fun _ h => h) fun _ _ outcome => outcome.1
  kill := fun _ durable => ⟨durable.1.faithful,durable.2.owed⟩
  queue := fun now send durable sendable _ =>
    ⟨(Recorded.lasting ext config).queue now send durable.1 sendable trivial,durable.2⟩
  broadcast := fun now position send durable found =>
    ⟨(Recorded.lasting ext config).broadcast now position send durable.1 found,durable.2⟩

end

theorem Legible.empty (ext : Externals) : Legible ext Storage.empty :=
  ⟨fun _ => ⟨none,Storage.loadBlock_absent rfl⟩,0,Storage.loadChainHeight_absent rfl⟩

/-- Every reachable state, whatever writes fail. -/
theorem run_durable (ext : Externals) (config : Config) (parses : ext.ParseUndoesDump)
    (persistent : config.persistent = true) (actions : List Action) :
    (Process.run ext config actions).Holds (Durable ext config) (Owes ext config) :=
  (Durable.lasting config parses persistent).run_holds
    ⟨fun _ _ _ _ member => by simp at member,0,Legible.empty ext,fun _ _ member => by simp at member⟩
    actions fun _ _ _ _ => trivial

/-- In every run, whatever writes fail: once a block was completed on a disk that held its
ancestors, every later restart returns when it is left alone, and has the block's height. -/
theorem completed_recovers (ext : Externals) (config : Config) (parses : ext.ParseUndoesDump)
    (persistent : config.persistent = true) (actions : List Action) (block : Block)
    (snapshot : Storage)
    (completed : .completed block (some snapshot) ∈ (Process.run ext config actions).log)
    (ancestors : Ancestors ext config snapshot block) :
    (∃ now, Process.run ext config (actions ++ [.kill] ++ [.boot []]) = .up now) ∧
    ∀ fates now, Process.run ext config (actions ++ [.kill] ++ [.boot fates]) = .up now →
      block.index.toNat + 1 ≤ now.node.blockchain.chain.length := by
  have holds := run_durable ext config parses persistent (actions ++ [.kill])
  have kept : .completed block (some snapshot) ∈
      (Process.run ext config (actions ++ [.kill])).log := by
    rw [Process.run_concat]
    cases state : Process.run ext config actions <;> rw [state] at completed <;> exact completed
  have dead : ∃ held disk sent log, Process.run ext config (actions ++ [.kill]) =
      .down held disk sent log := by
    rw [Process.run_concat]
    cases Process.run ext config actions <;> exact ⟨_,_,_,_,rfl⟩
  obtain ⟨held,disk,sent,log,down⟩ := dead
  rw [down] at holds kept
  obtain ⟨faithful,height,promised⟩ := holds
  have ⟨_,_,_,onDisk,_⟩ := ancestors
  obtain ⟨node,built⟩ := onDisk.construct disk
  refine ⟨?_,fun fates now up => ?_⟩
  · have spec : Spec (fun _ => False) _ _ _ (fun _ _ => False) :=
      promised.recovery_spec config parses persistent faithful sent built fun impossible =>
        impossible.elim
    rw [Process.run_concat,down]
    rcases Process.boot_outcome ext config held built spec (List.forall_mem_nil _) with
      ⟨after,booted,-⟩ | ⟨_,_,_,impossible⟩
    · exact ⟨after,booted⟩
    · exact impossible.elim
  · have spec : Spec (fun _ => True) _ _ _ (fun _ _ => True) :=
      promised.recovery_spec config parses persistent faithful sent built fun _ _ _ => trivial
    rw [Process.run_concat,down] at up
    rcases Process.boot_outcome ext config held built spec (fun _ _ => trivial) with
      ⟨after,booted,durable,replayed⟩ | ⟨_,_,booted,-⟩
    · rw [Process.step,booted] at up
      obtain rfl := Process.up.inj up
      obtain ⟨_,_,promised'⟩ := durable.2
      exact (promised'.kept block snapshot ((replayed.mem_iff (by simp)).mpr kept) ancestors).1
    · rw [Process.step,booted] at up
      cases up

def completions (log : List Event) : List (Block × Storage) :=
  log.filterMap fun | .completed block (some disk) => some (block,disk) | _ => none

theorem mem_completions {log : List Event} {block : Block} {disk : Storage} :
    (block,disk) ∈ completions log ↔ .completed block (some disk) ∈ log := by
  simp only [completions,List.mem_filterMap]
  constructor
  · rintro ⟨event,member,same⟩
    split at same <;> cases same
    exact member
  · exact fun member => ⟨_,member,rfl⟩

/-- The first block's record is written. -/
def Reference.writtenRun : List Action := [.boot []] ++ [deliver first []]

/-- The write of the first block fails, the second block arrives, and the node is restarted. -/
def Reference.lostRun : List Action := [.boot []] ++
  [deliver first [.proceed,.proceed,.proceed,.fail (str "IO error")]] ++ [deliver second []]

open Reference in
theorem completed_recovers_first : ∃ snapshot now,
    .completed first (some snapshot) ∈
      (Process.run libraries (config observerKeys ∅ true) writtenRun).log ∧
    Process.run libraries (config observerKeys ∅ true) (writtenRun ++ [.kill] ++ [.boot []]) =
      .up now ∧ 2 ≤ now.node.blockchain.chain.length := by
  have ran : (completions (Process.run libraries (config observerKeys ∅ true) writtenRun).log).any
      (fun found => found.1 = first) = true := by
    rw [writtenRun,run_deliver first_fits]
    decide +kernel
  obtain ⟨⟨block,snapshot⟩,member,same⟩ := List.any_eq_true.mp ran
  obtain rfl : block = first := of_decide_eq_true same
  have completed := mem_completions.mp member
  have ancestors : Ancestors libraries (config observerKeys ∅ true) snapshot first := by
    refine ⟨schedule,[genesis],rfl,⟨⟨schedule,genesis,rfl,createGenesisBlock_validator,.genesis⟩,
      fun i block positive at_i => ?_⟩,first_extends⟩
    rw [List.getElem?_eq_none (by simpa using positive)] at at_i
    cases at_i
  obtain ⟨⟨now,up⟩,recovers⟩ := completed_recovers libraries (config observerKeys ∅ true)
    libraries_parse rfl writtenRun first snapshot completed ancestors
  exact ⟨snapshot,now,completed,up,recovers [] now up⟩

open Reference in
/-- The height is stored with the second block, whose ancestor is missing: a restart brings
back the genesis block only. -/
theorem completed_lost : ¬ ∀ (actions : List Action) (block : Block) (snapshot : Storage),
    .completed block (some snapshot) ∈
      (Process.run libraries (config observerKeys ∅ true) actions).log →
    ∀ now, Process.run libraries (config observerKeys ∅ true) (actions ++ [.kill] ++ [.boot []]) =
      .up now → block.index.toNat + 1 ≤ now.node.blockchain.chain.length := by
  intro always
  have ran : (completions (Process.run libraries (config observerKeys ∅ true) lostRun).log).any
        (fun found => found.1 = second) = true ∧
      (Process.run libraries (config observerKeys ∅ true)
        (lostRun ++ [.kill] ++ [.boot []])).node?.any
        (fun node => node.blockchain.chain.length = 1) = true := by
    rw [Process.run_concat,Process.run_concat,lostRun,
      run_deliver second_fits,run_deliver first_fits]
    decide +kernel
  obtain ⟨⟨block,snapshot⟩,member,same⟩ := List.any_eq_true.mp ran.1
  obtain rfl : block = second := of_decide_eq_true same
  obtain ⟨now,up,one⟩ := Process.up_of_node ran.2
  have long := always lostRun second snapshot (mem_completions.mp member) now up
  have short : now.node.blockchain.chain.length = 1 := of_decide_eq_true one
  rw [short] at long
  exact absurd long (by decide)

end TitanCore
