import TitanCore.NodeAnnouncements
import TitanCore.NodePersistence
import TitanCore.NodeProgress
import TitanCore.StateSequence
import TitanCore.StorageRefinement

/-! The account records on disk. A block, the height and the accounts are written one after the
other, and recovery makes up for the first two only: the records are those of the ledger as long
as the process does not die in the loop that writes them. -/
namespace TitanCore

/-- The parties of a chain have the accounts its ledger gives them on record. -/
structure Booked (ext : Externals) (config : Config) (disk : Storage) (chain : List Block) : Prop where
  tidy : disk.Tidy ext
  files : ∀ addr ∈ chain.flatMap (Block.parties ext),
    disk.Files ext (ledgerOf config.genesisAllocations chain) addr

/-- A process that died when the height of its last block was saved, and not all accounts of the
block's parties were on record. -/
def Torn (ext : Externals) (held : Node) (disk : Storage) (log : List Event) : Prop :=
  ∃ block, held.blockchain.chain.getLast? = some block ∧ .heightSaved block ∈ log ∧
    ∃ addr ∈ block.parties ext, ¬ disk.Files ext held.state.accounts addr

def Filed (ext : Externals) (held : Node) (disk : Storage) (durable : List Block) : Prop :=
  ∀ block, held.blockchain.chain.getLast? = some block → block ∈ durable →
    ∀ addr ∈ block.parties ext, disk.Files ext held.state.accounts addr

/-- The storage answers with the ledger's balance and nonce for the parties of the chain. -/
def AccountsOnRecord (ext : Externals) (node : Node) : Prop :=
  ∃ storage, node.storage = some storage ∧ ∀ block ∈ node.blockchain.chain, ∀ tx ∈ block.transactions,
    ∀ addr, addr = tx.sender ∨ addr = tx.recipient → node.state.accountExists addr = true →
      storage.loadAccountState ext addr = .ok (some ⟨node.state.getBalance addr,node.state.getNonce addr⟩)

section ledger
variable {ext : Externals} {config : Config}

theorem foldl_touch_other {address : Address} {transactions : List Transaction}
    (other : ∀ tx ∈ transactions, address ≠ tx.sender ∧ address ≠ tx.recipient)
    (account : Option AccountState) : transactions.foldl (StateManager.touch address) account = account := by
  induction transactions with
  | nil => rfl
  | cons tx rest ih =>
    obtain ⟨first,later⟩ := List.forall_mem_cons.mp other
    rw [List.foldl_cons,StateManager.touch,if_neg (by tauto)]
    exact ih later

theorem ledgerStep_other {block : Block} (verified : verifyBlock ext block = true) {addr : Address}
    (other : addr ∉ block.parties ext) (accounts : Accounts) :
    (ledgerStep accounts block).lookup addr = accounts.lookup addr := by
  have signed := ((verifyBlock_iff ext block).mp verified).2.2.2
  rw [← applyBlock_accounts ⟨accounts,[]⟩]
  rcases StateManager.applyBlock_cases ⟨accounts,[]⟩ block with ⟨-,pays⟩ | ⟨-,same,-⟩
  · rw [pays.lookup]
    refine foldl_touch_other (fun tx member => ?_) _
    have apart : addr ∉ tx.parties ext := fun party => other (List.mem_flatMap.mpr ⟨tx,member,party⟩)
    rw [Transaction.parties,((verifyTransaction_iff ext tx).mp (signed tx member)).1] at apart
    simpa using apart
  · rw [same]

end ledger
section records
variable (ext : Externals) (config : Config)

/-- A running node between sections: its chain is on disk, and the accounts of its parties. -/
structure Current (now : Snapshot) : Prop where
  persisted : Persisted ext config [] (fun _ => True) now
  booked : Booked ext config now.node.disk now.node.blockchain.chain

structure Residue (held : Option Node) (disk : Storage) (sent : List Send) (log : List Event) : Prop where
  remains : Remains ext config [] (fun _ => True) held disk sent log
  records : ∀ node ∈ held, ∃ durable, Image ext config [] disk sent log durable ∧
    (Booked ext config disk durable ∧ Filed ext node disk durable ∨
      Torn ext node disk log ∧ disk.Tidy ext ∧
        node.state.accounts = ledgerOf config.genesisAllocations durable)

structure Trailing (block : Block) (now : Snapshot) : Prop where
  booked : ∃ older, older ≠ [] ∧ now.node.blockchain.chain = older ++ [block] ∧
    Booked ext config now.node.disk older

/-- Within the account loop: only the parties of the block may still be missing. -/
structure Filing (block : Block) (now : Snapshot) : Prop where
  persisted : Persisted ext config [] (fun _ => True) now
  counted : .heightSaved block ∈ now.log
  tidy : now.node.disk.Tidy ext
  booked : ∃ older, now.node.blockchain.chain = older ++ [block] ∧
    ∀ addr ∈ older.flatMap (Block.parties ext), addr ∉ block.parties ext →
      now.node.disk.Files ext now.node.state.accounts addr

variable {ext config}

theorem Booked.frame {disk disk' : Storage} {chain : List Block} (booked : Booked ext config disk chain)
    (same : ∀ addr, disk'.db.lookup (Storage.acctKey addr) = disk.db.lookup (Storage.acctKey addr)) :
    Booked ext config disk' chain := by
  refine ⟨booked.tidy.frame same,fun addr party acct account => ?_⟩
  rw [same]
  exact booked.files addr party acct account

theorem Configured.distinct {node : Node} (configured : Configured ext config node) :
    node.blockchain.chain.Nodup := by
  obtain ⟨genesis,created,grown⟩ := configured.grown
  exact grown.nodup (createGenesisBlock_index created)

theorem disk_of_held {node : Node} {storage : Storage} (held : node.storage = some storage) :
    node.disk = storage := by
  rw [Node.disk,held]
  rfl

theorem Persisted.image_disk {now : Snapshot} (persisted : Persisted ext config [] (fun _ => True) now) :
    Image ext config [] now.node.disk now.sent now.log now.node.blockchain.chain := by
  obtain ⟨disk,held,image⟩ := persisted.image
  rwa [disk_of_held held]

theorem Current.residue {now : Snapshot} (current : Current ext config now) :
    Residue ext config (some now.node) now.node.disk now.sent now.log := by
  refine ⟨current.persisted.remains,?_⟩
  rintro node ⟨⟩
  refine ⟨_,current.persisted.image_disk,.inl ⟨current.booked,fun block _ member addr party => ?_⟩⟩
  rw [current.persisted.sound.ledger]
  exact current.booked.files addr (List.mem_flatMap.mpr ⟨block,member,party⟩)

theorem Trailing.residue {block : Block} {now : Snapshot} (trailing : Trailing ext config block now)
    (ahead : Ahead ext config [] (fun _ => True) block now) :
    Residue ext config (some now.node) now.node.disk now.sent now.log := by
  refine ⟨ahead.remains,?_⟩
  rintro node ⟨⟩
  obtain ⟨older,-,chain,booked⟩ := trailing.booked
  obtain ⟨disk,durable,held,image,chain',-⟩ := ahead.image
  obtain ⟨rfl,-⟩ := List.append_inj' (chain.symm.trans chain') rfl
  rw [disk_of_held held] at booked ⊢
  refine ⟨older,image,.inl ⟨booked,fun last at_end member => ?_⟩⟩
  rw [chain,List.getLast?_concat] at at_end
  obtain rfl := Option.some.inj at_end
  have distinct := ahead.configured.distinct
  rw [chain] at distinct
  exact absurd rfl ((List.nodup_append.mp distinct).2.2 block member block (List.mem_singleton.mpr rfl))

/-- Once the block's own parties are on record, everybody is. -/
theorem Filing.finished {block : Block} {now : Snapshot} (filing : Filing ext config block now)
    (filed : ∀ addr ∈ block.parties ext, now.node.disk.Files ext now.node.state.accounts addr) :
    Booked ext config now.node.disk now.node.blockchain.chain := by
  obtain ⟨older,chain,others⟩ := filing.booked
  refine ⟨filing.tidy,fun addr party => ?_⟩
  rw [← filing.persisted.sound.ledger]
  by_cases own : addr ∈ block.parties ext
  · exact filed addr own
  · rw [chain,List.flatMap_append,List.mem_append] at party
    rcases party with before | last
    · exact others addr before own
    · simp only [List.flatMap_cons,List.flatMap_nil,List.append_nil] at last
      exact absurd last own

theorem Filing.residue {block : Block} {now : Snapshot} (filing : Filing ext config block now) :
    Residue ext config (some now.node) now.node.disk now.sent now.log := by
  refine ⟨filing.persisted.remains,?_⟩
  rintro node ⟨⟩
  refine ⟨_,filing.persisted.image_disk,?_⟩
  by_cases filed : ∀ addr ∈ block.parties ext, now.node.disk.Files ext now.node.state.accounts addr
  · refine .inl ⟨filing.finished filed,fun last at_end _ => ?_⟩
    obtain ⟨older,chain,-⟩ := filing.booked
    rw [chain,List.getLast?_concat] at at_end
    obtain rfl := Option.some.inj at_end
    exact filed
  · simp only [not_forall] at filed
    obtain ⟨addr,party,missing⟩ := filed
    refine .inr ⟨⟨block,?_,filing.counted,addr,party,missing⟩,filing.tidy,filing.persisted.sound.ledger⟩
    obtain ⟨older,chain,-⟩ := filing.booked
    rw [chain,List.getLast?_concat]

/-- The height is saved: the new ledger counts, and it differs for the block's parties only. -/
theorem Trailing.counted {block : Block} {now : Snapshot} {storage after : Storage} {status : Status}
    (trailing : Trailing ext config block now)
    (written : Written ext config [] (fun _ => True) block now) (held : now.node.storage = some storage)
    (done : storage.saveChainHeight now.node.blockchain.getHeight status = .ok after) :
    Filing ext config block ((now.onNode (Node.withStorage after)).record (.heightSaved block)) := by
  obtain ⟨older,nonempty,chain,booked⟩ := trailing.booked
  have same := Storage.saveChainHeight_accounts done
  rw [← disk_of_held held] at same
  refine ⟨written.counted held done,List.mem_append_right _ (List.mem_singleton_self _),
    booked.tidy.frame same,older,chain,fun addr party other => ?_⟩
  have verified := written.sound.configured.last_verified chain nonempty
  intro acct account
  change now.node.state.accounts.lookup addr = some acct at account
  rw [written.sound.ledger,chain,ledgerOf_append _ nonempty,ledgerStep_other verified other] at account
  change after.db.lookup (Storage.acctKey addr) = _
  rw [same]
  exact booked.files addr party acct account

theorem Trailing.frame {block : Block} {now later : Snapshot} (trailing : Trailing ext config block now)
    (chain : later.node.blockchain.chain = now.node.blockchain.chain)
    (same : ∀ addr, later.node.disk.db.lookup (Storage.acctKey addr) =
      now.node.disk.db.lookup (Storage.acctKey addr)) : Trailing ext config block later := by
  obtain ⟨older,nonempty,whole,booked⟩ := trailing.booked
  exact ⟨older,nonempty,by rw [chain]; exact whole,booked.frame same⟩

theorem Current.refused {block : Block} {now : Snapshot} (current : Current ext config now)
    (refused : (now.node.blockchain.addBlock ext block).1 = false) :
    Current ext config (now.onNode fun node =>
      { node with blockchain := (node.blockchain.addBlock ext block).2 }) := by
  refine ⟨current.persisted.refused refused,?_⟩
  change Booked ext config now.node.disk (now.node.blockchain.addBlock ext block).2.chain
  rw [Blockchain.addBlock_refused ext _ _ refused]
  exact current.booked

theorem Filing.accountSaved {block : Block} {now : Snapshot} (filing : Filing ext config block now)
    {storage after : Storage} {addr : Address} {acct : AccountState} {status : Status}
    (held : now.node.storage = some storage) (account : now.node.state.accounts.lookup addr = some acct)
    (done : storage.saveAccountState ext addr acct status = .ok after) :
    Filing ext config block (now.onNode (Node.withStorage after)) := by
  obtain ⟨older,chain,others⟩ := filing.booked
  have tidy := filing.tidy
  rw [disk_of_held held] at tidy
  refine ⟨filing.persisted.accountSaved held done,filing.counted,tidy.saveAccountState done,older,chain,?_⟩
  intro other party apart
  have files := others other party apart
  rw [disk_of_held held] at files
  exact files.saveAccountState account done

theorem Filing.completed {block : Block} {now : Snapshot} (filing : Filing ext config block now)
    {storage : Storage} (held : now.node.storage = some storage)
    (filed : ∀ addr ∈ block.parties ext, storage.Files ext now.node.state.accounts addr) :
    Current ext config (now.record (.completed block (some storage))) ∧
      block ∈ (now.record (.completed block (some storage))).node.blockchain.chain := by
  rw [← disk_of_held held] at filed
  refine ⟨⟨filing.persisted.completed block _,filing.finished filed⟩,?_⟩
  obtain ⟨older,chain,-⟩ := filing.booked
  change block ∈ now.node.blockchain.chain
  rw [chain]
  exact List.mem_append_right older (List.mem_singleton_self block)

theorem Current.bookkeeping (orders : Nat → IterationOrder) (block : Block) :
    Bookkeeping ext Calm orders block
      (Process.afterwards (Current ext config) (Residue ext config)) (Current ext config)
      (fun now => (Ahead ext config [] (fun _ => True) block now ∧ Lagging ext config block now.node) ∧
        Trailing ext config block now)
      (fun now => (Ahead ext config [] (fun _ => True) block now ∧ Settled ext config now.node ∧
        RecordedTo config now.log now.node.blockchain.chain) ∧ Trailing ext config block now)
      (fun now => (Ahead ext config [] (fun _ => True) block now ∧ Sound ext config now.node ∧
        RecordedTo config now.log now.node.blockchain.chain) ∧ Trailing ext config block now)
      (fun now => Written ext config [] (fun _ => True) block now ∧ Trailing ext config block now)
      (Filing ext config block)
      (fun now => Current ext config now ∧ block ∈ now.node.blockchain.chain) := by
  have base := Persisted.acceptance ext config [] (fun _ => True) orders block trivial
  exact {
    refuse := fun _ current refused => current.refused refused
    append := fun now current accepted =>
      ⟨base.append now current.persisted accepted,now.node.blockchain.chain,now.node.blockchain.nonempty,
        (Blockchain.addBlock_accepted ext _ _ accepted).2,current.booked⟩
    apply := fun now stage => ⟨base.apply now stage.1,stage.2.frame rfl fun _ => rfl⟩
    clean := fun now stage => ⟨base.clean now stage.1,stage.2.frame rfl fun _ => rfl⟩
    save := fun now storage status after stage held done => by
      refine ⟨base.save now storage status after stage.1 held done,stage.2.frame rfl fun addr => ?_⟩
      rw [disk_of_held held]
      exact Storage.saveBlock_accounts done addr
    count := fun now storage status after stage held done => stage.2.counted stage.1 held done
    account := fun _ _ _ _ _ _ filing held account done => filing.accountSaved held account done
    complete := fun _ _ filing held filed => filing.completed held filed
    memory := fun now stage gone => by
      obtain ⟨disk,_,held,-⟩ := stage.1.1.image
      rw [gone] at held
      cases held
    crash := fun _ now stages => by
      rcases stages with current | stage | stage | stage | stage | filing
      · exact current.residue
      · exact stage.2.residue stage.1.1
      · exact stage.2.residue stage.1.1
      · exact stage.2.residue stage.1.1
      · exact stage.2.residue stage.1.ahead
      · exact filing.residue
    fail := fun _ possible => possible.no_failure.elim }

/-- Every section but the constructor. -/
theorem Current.enduring (parses : ext.ParseUndoesDump) (persistent : config.persistent = true) :
    Process.Enduring ext Calm (fun _ => True) (Current ext config) (Residue ext config) := by
  have base : Process.Lasting ext config Calm (fun _ => True) (fun _ => True)
      (Persisted ext config [] (fun _ => True)) (Remains ext config [] (fun _ => True)) :=
    Persisted.lasting parses persistent fun _ _ _ _ _ _ _ => trivial
  exact {
    announcing := {
      interrupt := fun _ _ current => current
      blame := fun text now current => ⟨base.stable.blame text now current.persisted,current.booked⟩
      reply := fun recipient message now current sendable _ =>
        ⟨base.stable.reply recipient message now current.persisted sendable trivial,current.booked⟩
      admission := fun payload tx recipient now _ decoded current => by
        have admitted := base.stable.admission tx now current.persisted
        refine ⟨?_,current.booked⟩
        split_ifs with added
        · refine base.queue _ _ admitted ?_ trivial
          exact .transaction (Mempool.addTransaction_verified added) decoded
        · rw [Snapshot.queue_none]
          exact admitted
      accept := fun orders msg block _ carries =>
        ⟨_,_,_,_,_,_,Current.bookkeeping orders block,fun _ kept => kept.1,fun recipient now type kept => by
          cases carries with
          | newBlock decoded =>
            exact ⟨base.queue now _ kept.1.persisted (.block kept.2 decoded) trivial,kept.1.booked⟩
          | blocks => cases type⟩ }
    kill := fun _ current => current.residue
    broadcast := fun now position send current found =>
      ⟨base.broadcast now position send current.persisted found,current.booked⟩ }

theorem OnDisk.first_parties {disk : Storage} {chain : List Block} (onDisk : OnDisk ext config disk chain)
    (short : chain.length = 1) : chain.flatMap (Block.parties ext) = [] := by
  obtain ⟨_,genesis,-,created,grown⟩ := onDisk.grown
  cases grown with
  | genesis => simp [Block.parties,createGenesisBlock_transactions created]
  | append grown valid =>
    have before := List.length_pos_iff.mpr grown.nonempty
    rw [List.length_append,List.length_singleton] at short
    omega

/-- The chain the next start rebuilds, whose records are on disk. -/
theorem Residue.restored {held : Option Node} {disk : Storage} {sent : List Send} {log : List Event}
    (residue : Residue ext config held disk sent log) (whole : ∀ node ∈ held, ¬ Torn ext node disk log)
    {node : Node} (built : construct ext config disk = .ok node) :
    ∃ durable, Image ext config [] disk sent log durable ∧ Booked ext config disk durable := by
  cases held with
  | none =>
    obtain ⟨durable,image,-⟩ := residue.remains.image built
    cases residue.remains
    refine ⟨durable,image,fun addr text record => (by cases record),fun addr party => ?_⟩
    obtain ⟨height,read,length⟩ := image.height
    obtain rfl := Except.ok.inj ((Storage.loadChainHeight_absent rfl).symm.trans read)
    rw [image.onDisk.first_parties length.symm] at party
    cases party
  | some dead =>
    obtain ⟨durable,image,⟨booked,-⟩ | ⟨torn,-⟩⟩ := residue.records dead rfl
    · exact ⟨durable,image,booked⟩
    · exact absurd torn (whole dead rfl)

theorem Residue.interrupted {held : Option Node} {disk : Storage} {sent : List Send} {log : List Event}
    (residue : Residue ext config held disk sent log) {now : Snapshot}
    (interrupted : Interrupted config sent log now) : Residue ext config held disk now.sent now.log := by
  refine ⟨residue.remains.interrupted interrupted,fun node dead => ?_⟩
  obtain ⟨durable,image,filed | ⟨⟨block,last,counted,missing⟩,broken⟩⟩ := residue.records node dead
  · exact ⟨durable,image.interrupted interrupted,.inl filed⟩
  · have still := (interrupted.replayed.mem_iff (by simp)).mpr counted
    exact ⟨durable,image.interrupted interrupted,.inr ⟨⟨block,last,still,missing⟩,broken⟩⟩

/-- A start after a death that tore nothing. -/
theorem Residue.boot (parses : ext.ParseUndoesDump) (persistent : config.persistent = true)
    {held : Option Node} {disk : Storage} {sent : List Send} {log : List Event}
    (residue : Residue ext config held disk sent log) (whole : ∀ node ∈ held, ¬ Torn ext node disk log)
    {fates : List Fate} (calm : ∀ fate ∈ fates, Calm fate) :
    ((Process.down held disk sent log).boot ext config fates).Holds (Current ext config) (Residue ext config) := by
  cases built : construct ext config disk with
  | error e =>
    rw [Process.boot,built]
    exact residue
  | ok node =>
    obtain ⟨durable,image,booked⟩ := residue.restored whole built
    have spec : Spec Calm _ _ _ fun _ now => Residue ext config held disk now.sent now.log :=
      image.recovery_spec parses persistent built fun _ now interrupted => residue.interrupted interrupted
    rcases Process.boot_outcome ext config held built spec calm with
      ⟨now,up,height,read,rebuilt⟩ | ⟨reason,now,down,left⟩
    · rw [up]
      refine ⟨image.persisted (fun _ _ => trivial) read rebuilt,?_⟩
      rw [image.rebuilt read rebuilt,disk_of_held rebuilt.storage]
      exact booked
    · rw [down]
      exact left

theorem step_current (parses : ext.ParseUndoesDump) (persistent : config.persistent = true)
    {process : Process} (holds : process.Holds (Current ext config) (Residue ext config))
    (whole : ∀ held disk sent log, process = .down (some held) disk sent log → ¬ Torn ext held disk log)
    (action : Action) (calm : ∀ fate ∈ action.fates, Calm fate) :
    (process.step ext config action).Holds (Current ext config) (Residue ext config) := by
  by_cases restart : ∃ fates, action = .boot fates
  · obtain ⟨fates,rfl⟩ := restart
    cases process with
    | up now => exact holds
    | down held disk sent log =>
      refine Residue.boot parses persistent holds ?_ calm
      rintro node ⟨⟩
      exact whole node disk sent log rfl
  · have noBoot : action.boots = false := by
      cases action with
      | boot fates => exact absurd ⟨fates,rfl⟩ restart
      | _ => rfl
    exact (Current.enduring parses persistent).step_holds action calm noBoot (fun _ _ => trivial) holds

/-- In a verified block the key of a transaction is its sender's. -/
theorem Grown.derived {consensus : Option PoAConsensus} {genesis : Block} {chain : List Block}
    (grown : Grown ext consensus genesis chain) (quiet : genesis.transactions = []) :
    ∀ block ∈ chain, ∀ tx ∈ block.transactions, tx.parties ext = [tx.sender,tx.recipient] := by
  induction grown with
  | genesis => simp [quiet]
  | append grown valid ih =>
    intro block member tx inside
    rcases List.mem_append.mp member with before | last
    · exact ih block before tx inside
    · obtain rfl := List.mem_singleton.mp last
      have signed := ((verifyBlock_iff ext block).mp valid.verified).2.2.2 tx inside
      rw [Transaction.parties,((verifyTransaction_iff ext tx).mp signed).1]

theorem Current.records (parses : ext.ParseUndoesDump) {now : Snapshot} (current : Current ext config now) :
    AccountsOnRecord ext now.node := by
  obtain ⟨storage,held,-⟩ := current.persisted.image
  refine ⟨storage,held,fun block member tx inside addr party present => ?_⟩
  obtain ⟨genesis,created,grown⟩ := current.persisted.sound.configured.grown
  have parties := grown.derived (createGenesisBlock_transactions created) block member tx inside
  have booked := current.booked.files addr (List.mem_flatMap.mpr ⟨block,member,List.mem_flatMap.mpr ⟨tx,inside,by
    rw [parties]
    simpa using party⟩⟩)
  rw [← current.persisted.sound.ledger,disk_of_held held] at booked
  exact Storage.loadAccountState_record parses (booked _ (StateManager.lookup_of_accountExists present))

/-- A start after a death that tore the records of a block, when it is left alone. -/
theorem Residue.broken (parses : ext.ParseUndoesDump) (persistent : config.persistent = true)
    {node : Node} {disk : Storage} {sent : List Send} {log : List Event}
    (residue : Residue ext config (some node) disk sent log) (torn : Torn ext node disk log) :
    ∃ now, (Process.down (some node) disk sent log).boot ext config [] = .up now ∧
      ¬ AccountsOnRecord ext now.node := by
  obtain ⟨durable,image,records⟩ := residue.records node rfl
  obtain ⟨block,last,counted,addr,party,missing⟩ := torn
  have member := image.saved block counted
  rcases records with ⟨-,filed⟩ | ⟨-,tidy,ledger⟩
  · exact absurd (filed block last member addr party) missing
  · obtain ⟨now,up⟩ := image.returns parses persistent (some node)
    obtain ⟨chain,accounts,storage⟩ := image.reboot parses persistent (by simp) up
    refine ⟨now,up,fun ⟨found,held,records⟩ => missing fun acct account => ?_⟩
    obtain rfl := Option.some.inj (storage.symm.trans held)
    rw [ledger,← accounts] at account
    have present : now.node.state.accountExists addr = true := by
      rw [StateManager.accountExists,account]
      rfl
    obtain ⟨tx,inside,own⟩ := List.mem_flatMap.mp party
    obtain ⟨_,_,-,created,grown⟩ := image.onDisk.grown
    rw [grown.derived (createGenesisBlock_transactions created) block member tx inside] at own
    rw [← chain] at member
    have loaded := records block member tx inside addr (by simpa using own) present
    obtain rfl := Option.some.inj (account.symm.trans (StateManager.lookup_of_accountExists present))
    exact tidy.record parses loaded

end records

/-- A run in which no death tears the records of a block. -/
def NeverTorn (ext : Externals) (config : Config) (actions : List Action) : Prop :=
  ∀ earlier, earlier <+: actions → ∀ held disk sent log,
    Process.run ext config earlier = .down (some held) disk sent log → ¬ Torn ext held disk log

section runs
variable {ext : Externals} {config : Config}

theorem run_current (parses : ext.ParseUndoesDump) (persistent : config.persistent = true)
    (actions : List Action) (calm : ∀ action ∈ actions, ∀ fate ∈ action.fates, Calm fate)
    (whole : NeverTorn ext config actions) :
    (Process.run ext config actions).Holds (Current ext config) (Residue ext config) := by
  induction actions using List.reverseRecOn with
  | nil =>
    refine ⟨.unborn rfl (fun _ _ _ _ member => ?_) fun _ member => ?_,?_⟩
    · cases member
    · cases member
    · rintro node ⟨⟩
  | append_singleton actions action ih =>
    have before := ih (fun earlier member => calm earlier (List.mem_append_left _ member))
      fun earlier inside => whole earlier (inside.trans (List.prefix_append _ _))
    rw [Process.run_concat]
    exact step_current parses persistent before (whole actions (List.prefix_append _ _)) action
      (calm action (by simp))

theorem neverTorn_concat {actions : List Action} {action : Action} (before : NeverTorn ext config actions)
    (last : ∀ held disk sent log, Process.run ext config (actions ++ [action]) = .down (some held) disk sent log →
      ¬ Torn ext held disk log) : NeverTorn ext config (actions ++ [action]) := by
  intro earlier inside
  rcases List.prefix_concat_iff.mp inside with rfl | inside
  · exact last
  · exact before earlier inside

/-- If each start finds the accounts on record, nothing was torn before. -/
theorem neverTorn_of_records (parses : ext.ParseUndoesDump) (persistent : config.persistent = true)
    (actions : List Action) (calm : ∀ action ∈ actions, ∀ fate ∈ action.fates, Calm fate)
    (records : ∀ earlier, earlier <+: actions → ∀ now,
      Process.run ext config (earlier ++ [.boot []]) = .up now → AccountsOnRecord ext now.node) :
    NeverTorn ext config actions := by
  induction actions using List.reverseRecOn with
  | nil =>
    intro earlier inside held disk sent log dead
    obtain rfl := List.prefix_nil.mp inside
    cases dead
  | append_singleton actions action ih =>
    have calmly : ∀ earlier ∈ actions, ∀ fate ∈ earlier.fates, Calm fate :=
      fun earlier member => calm earlier (List.mem_append_left _ member)
    have before := ih calmly fun earlier inside => records earlier (inside.trans (List.prefix_append _ _))
    refine neverTorn_concat before fun held disk sent log dead torn => ?_
    have residue := step_current parses persistent (run_current parses persistent actions calmly before)
      (before actions List.prefix_rfl) action (calm action (by simp))
    rw [← Process.run_concat,dead] at residue
    obtain ⟨now,up,missing⟩ := Residue.broken parses persistent residue torn
    refine missing (records (actions ++ [action]) List.prefix_rfl now ?_)
    rw [Process.run_concat,dead]
    exact up

end runs

/-- No death tears the records of a block exactly if the accounts on record are always those of
the ledger: in every state between two sections, and after every start that is left alone. -/
theorem accounts_on_record_iff (ext : Externals) (config : Config) (parses : ext.ParseUndoesDump)
    (persistent : config.persistent = true) (actions : List Action)
    (calm : ∀ action ∈ actions, ∀ fate ∈ action.fates, Calm fate) :
    NeverTorn ext config actions ↔ ∀ earlier, earlier <+: actions → ∀ now,
      Process.run ext config earlier = .up now ∨ Process.run ext config (earlier ++ [.boot []]) = .up now →
      AccountsOnRecord ext now.node := by
  constructor
  · intro whole earlier inside now up
    have current := run_current parses persistent earlier
      (fun action member => calm action (inside.subset member)) fun start before => whole start (before.trans inside)
    rcases up with up | up
    · rw [up] at current
      exact Current.records parses current
    · have booted := step_current parses persistent current (whole earlier inside) (.boot []) (by simp [Action.fates])
      rw [← Process.run_concat,up] at booted
      exact Current.records parses booted
  · intro records
    exact neverTorn_of_records parses persistent actions calm fun earlier inside now up =>
      records earlier inside now (.inr up)

/-- The process dies between the height of a block and its first account, and is restarted. -/
def Reference.unfiledRun : List Action := [.boot []] ++
  [deliver paying [.proceed,.proceed,.proceed,.proceed,.proceed,.crash]] ++ [.boot []]

/-- The node is killed after it has filed the accounts of a payment. -/
def Reference.filedRun : List Action := payingRun ++ [.kill]

open Reference in
theorem filedRun_neverTorn : NeverTorn libraries (config observerKeys funded true) filedRun := by
  have ran : (Process.run libraries (config observerKeys funded true) payingRun).node?.any
      (fun node => node.blockchain.chain.getLast? = some paying ∧ ∀ addr ∈ paying.parties libraries,
        node.disk.db.lookup (Storage.acctKey addr) =
          (node.state.accounts.lookup addr).map fun acct => libraries.dump (Storage.accountJson acct)) = true := by
    rw [payingRun,run_deliver paying_fits]
    decide +kernel
  obtain ⟨now,up,found⟩ := Process.up_of_node ran
  obtain ⟨last,filed⟩ := of_decide_eq_true found
  have killed : Process.run libraries (config observerKeys funded true) (payingRun ++ [.kill]) =
      .down (some now.node) now.node.disk now.sent now.log := by
    rw [Process.run_concat,up]
    rfl
  intro earlier inside held disk sent log dead
  rcases List.prefix_concat_iff.mp inside with rfl | inside
  · rw [killed] at dead
    cases dead
    rintro ⟨block,at_end,-,addr,party,missing⟩
    obtain rfl := Option.some.inj (last.symm.trans at_end)
    refine missing fun acct account => ?_
    rw [filed addr party,account]
    rfl
  · rcases List.prefix_concat_iff.mp inside with rfl | inside
    · rw [← payingRun,up] at dead
      cases dead
    · have alive : (Process.run libraries (config observerKeys funded true) [.boot []]).held?.isNone = true := by
        decide +kernel
      rcases List.prefix_cons_iff.mp inside with rfl | ⟨rest,rfl,empty⟩
      · cases dead
      · rw [List.prefix_nil.mp empty] at dead
        rw [dead] at alive
        cases alive

open Reference in
theorem accounts_on_record_paying : ∃ now,
    Process.run libraries (config observerKeys funded true) (filedRun ++ [.boot []]) = .up now ∧
    paying ∈ now.node.blockchain.chain ∧ AccountsOnRecord libraries now.node := by
  have ran : (Process.run libraries (config observerKeys funded true) (filedRun ++ [.boot []])).node?.any
      (fun node => paying ∈ node.blockchain.chain) = true := by
    rw [Process.run_concat,filedRun,Process.run_concat,payingRun,run_deliver paying_fits]
    decide +kernel
  obtain ⟨now,up,found⟩ := Process.up_of_node ran
  have calm : ∀ action ∈ filedRun, ∀ fate ∈ action.fates, Calm fate := by
    simp [filedRun,payingRun,deliver,Action.fates]
  have records := (accounts_on_record_iff libraries (config observerKeys funded true) libraries_parse rfl
    filedRun calm).mp filedRun_neverTorn filedRun List.prefix_rfl now (.inr up)
  exact ⟨now,up,of_decide_eq_true found,records⟩

open Reference in
/-- After the restart the chain has the block again, and its sender has no record. -/
theorem accounts_unfiled : ¬ ∀ actions : List Action,
    (∀ action ∈ actions, ∀ fate ∈ action.fates, Calm fate) → ∀ now,
    Process.run libraries (config observerKeys funded true) actions = .up now →
    AccountsOnRecord libraries now.node := by
  intro always
  have ran : (Process.run libraries (config observerKeys funded true) unfiledRun).node?.any
      (fun node => paying ∈ node.blockchain.chain ∧ node.state.accountExists validatorAddress = true ∧
        (node.disk.db.lookup (Storage.acctKey validatorAddress)).isNone = true) = true := by
    rw [unfiledRun,Process.run_concat,run_deliver paying_fits]
    decide +kernel
  obtain ⟨now,up,found⟩ := Process.up_of_node ran
  obtain ⟨member,present,absent⟩ := of_decide_eq_true found
  have calm : ∀ action ∈ unfiledRun, ∀ fate ∈ action.fates, Calm fate := by
    simp [unfiledRun,deliver,Action.fates,Calm]
  obtain ⟨storage,held,records⟩ := always unfiledRun calm now up
  have pays : payment ∈ paying.transactions := List.mem_singleton_self payment
  have loaded := records paying member payment pays validatorAddress (.inl rfl) present
  rw [disk_of_held held,Option.isNone_iff_eq_none] at absent
  rw [Storage.loadAccountState,absent] at loaded
  cases loaded

end TitanCore
