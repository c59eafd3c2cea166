import TitanCore.NodeInvariant
import TitanCore.Reference

/-! The ledger of a running node against its chain: always the chain replayed with rejected
blocks skipped, and the strict replay exactly when every block could be paid. -/
namespace TitanCore

def replay (accounts : Accounts) : List Block → Option Accounts
  | [] => some accounts
  | block :: rest =>
    match StateManager.applyBlock ⟨accounts,[]⟩ block with
    | (true,state) => replay state.accounts rest
    | (false,_) => none

/-- The chain replays from the genesis allocations to exactly the node's accounts. -/
def Agrees (config : Config) (node : Node) : Prop :=
  replay (StateManager.create config.genesisAllocations).accounts node.blockchain.chain.tail =
    some node.state.accounts

instance (config : Config) (node : Node) : Decidable (Agrees config node) :=
  inferInstanceAs (Decidable (_ = _))

/-- A block applied on the way to `chain` could be paid from the ledger it met: each of its
transactions in turn. -/
def Event.PayableOn (chain : List Block) : Event → Prop
  | .applied block before made _ =>
    made <+: chain → ∃ final, StateManager.Pays before block.transactions final
  | _ => True

theorem replay_cons (accounts : Accounts) (block : Block) (rest : List Block) (final : Accounts) :
    replay accounts (block :: rest) = some final ↔
      (∃ paid, StateManager.Pays accounts block.transactions paid) ∧
      replay (ledgerStep accounts block) rest = some final := by
  change (match StateManager.applyBlock ⟨accounts,[]⟩ block with
    | (true,state) => replay state.accounts rest
    | (false,_) => none) = some final ↔ _
  unfold ledgerStep
  have cases := StateManager.applyBlock_cases ⟨accounts,[]⟩ block
  cases result : StateManager.applyBlock ⟨accounts,[]⟩ block with
  | mk accepted state =>
    rw [result] at cases
    cases accepted with
    | true =>
      rcases cases with ⟨-,pays⟩ | ⟨impossible,-⟩
      · exact ⟨fun done => ⟨⟨_,pays⟩,done⟩,fun done => done.2⟩
      · cases impossible
    | false =>
      rcases cases with ⟨impossible,-⟩ | ⟨-,-,never⟩
      · cases impossible
      · simp only [reduceCtorEq,false_iff,not_and]
        exact fun ⟨paid,pays⟩ => absurd pays (never paid)

/-- The strict replay is the lenient one, when each block is payable on the ledger before it. -/
theorem replay_iff (accounts : Accounts) (blocks : List Block) :
    replay accounts blocks = some (blocks.foldl ledgerStep accounts) ↔
      ∀ before block later, blocks = before ++ block :: later →
        ∃ paid, StateManager.Pays (before.foldl ledgerStep accounts) block.transactions paid := by
  induction blocks generalizing accounts with
  | nil => simp [replay]
  | cons first rest ih =>
    rw [replay_cons,List.foldl_cons,ih]
    constructor
    · rintro ⟨payable,others⟩ before block later split
      cases before with
      | nil =>
        obtain ⟨rfl,rfl⟩ := List.cons.inj split
        exact payable
      | cons head before =>
        obtain ⟨rfl,rest_split⟩ := List.cons.inj split
        exact others before block later rest_split
    · intro each
      refine ⟨each [] first rest rfl,fun before block later split => ?_⟩
      exact each (first :: before) block later (by rw [split]; rfl)

/-- Every block of the chain but the first was applied, on the ledger of the blocks before it. -/
def RecordedTo (config : Config) (log : List Event) (chain : List Block) : Prop :=
  ∀ older block newer, chain = older ++ block :: newer → older ≠ [] →
    ∃ after, Event.applied block (ledgerOf config.genesisAllocations older) (older ++ [block])
      after ∈ log

/-- What an application on record met and left. -/
def Faithful (config : Config) (log : List Event) : Prop :=
  ∀ block before chain after, Event.applied block before chain after ∈ log →
    ∃ older, older ≠ [] ∧ chain = older ++ [block] ∧
      before = ledgerOf config.genesisAllocations older ∧
      after = ledgerOf config.genesisAllocations chain

section
variable {ext : Externals} {config : Config}

theorem Faithful.other {log : List Event} (faithful : Faithful config log) {event : Event}
    (other : ∀ block before chain after, event ≠ .applied block before chain after) :
    Faithful config (log ++ [event]) := by
  intro block before chain after member
  rcases List.mem_append.mp member with old | new
  · exact faithful block before chain after old
  · exact absurd (List.mem_singleton.mp new).symm (other block before chain after)

theorem RecordedTo.more {log : List Event} {chain : List Block}
    (recorded : RecordedTo config log chain) (events : List Event) :
    RecordedTo config (log ++ events) chain := by
  intro older block newer split nonempty
  obtain ⟨after,member⟩ := recorded older block newer split nonempty
  exact ⟨after,List.mem_append_left _ member⟩

theorem RecordedTo.single (log : List Event) (genesis : Block) : RecordedTo config log [genesis] := by
  intro older block newer split nonempty
  have lengths := congrArg List.length split
  have positive := List.length_pos_iff.mpr nonempty
  simp only [List.length_cons,List.length_nil,List.length_append] at lengths
  omega

theorem RecordedTo.append {log : List Event} {chain : List Block} {block : Block} {after : Accounts}
    (recorded : RecordedTo config log chain) :
    RecordedTo config (log ++ [.applied block (ledgerOf config.genesisAllocations chain)
      (chain ++ [block]) after]) (chain ++ [block]) := by
  intro older found newer split nonempty
  rcases List.eq_nil_or_concat newer with rfl | ⟨newer,last,rfl⟩
  · obtain ⟨rfl,same⟩ := List.append_inj' split rfl
    obtain ⟨rfl,-⟩ := List.cons.inj same
    exact ⟨after,by simp⟩
  · rw [List.concat_eq_append,← List.cons_append,← List.append_assoc] at split
    obtain ⟨rfl,-⟩ := List.append_inj' split rfl
    exact recorded.more _ older found newer rfl nonempty

structure Recorded (ext : Externals) (config : Config) (now : Snapshot) : Prop where
  sound : Sound ext config now.node
  events : RecordedTo config now.log now.node.blockchain.chain
  faithful : Faithful config now.log

/-- One block on the chain is neither applied nor on record. -/
structure Unrecorded (ext : Externals) (config : Config) (block : Block) (now : Snapshot) : Prop where
  configured : Configured ext config now.node
  older : ∃ older, older ≠ [] ∧ now.node.blockchain.chain = older ++ [block] ∧
    now.node.state.accounts = ledgerOf config.genesisAllocations older ∧
    RecordedTo config now.log older
  faithful : Faithful config now.log

theorem Unrecorded.lagging {block : Block} {now : Snapshot}
    (unrecorded : Unrecorded ext config block now) : Lagging ext config block now.node := by
  obtain ⟨older,nonempty,chain,ledger,-⟩ := unrecorded.older
  exact ⟨unrecorded.configured,older,nonempty,chain,ledger⟩

theorem Recorded.refused {now : Snapshot} (recorded : Recorded ext config now) {block : Block}
    (refused : (now.node.blockchain.addBlock ext block).1 = false) :
    Recorded ext config (now.onNode (Node.addBlock ext block)) := by
  refine ⟨recorded.sound.refused refused,?_,recorded.faithful⟩
  change RecordedTo config now.log (now.node.blockchain.addBlock ext block).2.chain
  rw [Blockchain.addBlock_refused ext _ _ refused]
  exact recorded.events

theorem Recorded.appended {now : Snapshot} (recorded : Recorded ext config now) {block : Block}
    (accepted : (now.node.blockchain.addBlock ext block).1 = true) :
    Unrecorded ext config block (now.onNode (Node.addBlock ext block)) :=
  ⟨recorded.sound.configured.addBlock block,⟨now.node.blockchain.chain,now.node.blockchain.nonempty,
    (Blockchain.addBlock_accepted ext _ _ accepted).2,recorded.sound.ledger,recorded.events⟩,
    recorded.faithful⟩

theorem Unrecorded.applied {block : Block} {now : Snapshot}
    (unrecorded : Unrecorded ext config block now) :
    RecordedTo config (now.log ++ [.applied block now.node.state.accounts
      now.node.blockchain.chain (now.node.state.applyBlock block).2.accounts])
      now.node.blockchain.chain ∧
    Faithful config (now.log ++ [.applied block now.node.state.accounts
      now.node.blockchain.chain (now.node.state.applyBlock block).2.accounts]) := by
  obtain ⟨older,nonempty,chain,ledger,recorded⟩ := unrecorded.older
  constructor
  · rw [chain,ledger]
    exact recorded.append
  · intro found before made after member
    rcases List.mem_append.mp member with old | new
    · exact unrecorded.faithful found before made after old
    · obtain ⟨rfl,rfl,rfl,rfl⟩ := Event.applied.inj (List.mem_singleton.mp new)
      refine ⟨older,nonempty,chain,ledger,?_⟩
      rw [applyBlock_accounts,chain,ledgerOf_append _ nonempty,ledger]

end

section
variable (ext : Externals) (config : Config)

theorem Recorded.acceptance (orders : Nat → IterationOrder) (block : Block) :
    Acceptance ext (fun _ => True) orders block
      (Process.afterwards (Recorded ext config) fun _ _ _ log => Faithful config log)
      (Recorded ext config) (Unrecorded ext config block)
      (fun now => Settled ext config now.node ∧
        RecordedTo config now.log now.node.blockchain.chain ∧ Faithful config now.log)
      (Recorded ext config) (Recorded ext config) (Recorded ext config) (Recorded ext config) where
  refuse := fun _ recorded refused => recorded.refused refused
  append := fun _ recorded accepted => recorded.appended accepted
  apply := fun _ unrecorded => ⟨unrecorded.lagging.applied,unrecorded.applied⟩
  clean := fun _ settled => ⟨settled.1.cleaned block orders,settled.2.1,settled.2.2⟩
  save := fun _ _ _ after recorded held _ =>
    ⟨recorded.sound.withStorage held after,recorded.events,recorded.faithful⟩
  count := fun _ _ _ after recorded held _ => ⟨recorded.sound.withStorage held after,
    recorded.events.more _,recorded.faithful.other (by simp)⟩
  account := fun _ _ _ _ _ after recorded held _ =>
    ⟨recorded.sound.withStorage held after,recorded.events,recorded.faithful⟩
  complete := fun _ _ recorded _ =>
    ⟨recorded.sound,recorded.events.more _,recorded.faithful.other (by simp)⟩
  memory := fun _ recorded _ =>
    ⟨recorded.sound,recorded.events.more _,recorded.faithful.other (by simp)⟩
  crash := fun _ _ stages => by
    rcases stages with h | h | h | h | h | h
    · exact h.faithful
    · exact h.faithful
    · exact h.2.2
    · exact h.faithful
    · exact h.faithful
    · exact h.faithful
  fail := fun _ _ _ _ stages => by rcases stages with h | h | h <;> exact h

theorem Recorded.recovery (stop : Nat) :
    Recovery ext (fun _ => True) (fun _ now => Faithful config now.log) stop
      (fun _ now => Recorded ext config now ∧ now.node.mempool = Mempool.empty)
      (fun _ now => Faithful config now.log) (Recorded ext config) where
  unreadable := fun _ _ _ _ _ recorded _ _ => recorded.1.faithful
  missing := fun _ _ _ _ recorded _ _ => recorded.1
  refuse := fun _ _ _ _ _ recorded _ _ refused => recorded.1.refused refused
  append := fun _ now _ block _ recorded _ _ accepted after same => by
    subst same
    have unrecorded := recorded.1.appended accepted
    have settled := unrecorded.lagging.applied
    refine ⟨unrecorded.faithful,⟨⟨settled.configured,settled.ledger,?_⟩,unrecorded.applied.1,
      unrecorded.applied.2⟩,recorded.2⟩
    change Mempool.Consistent ext _ now.node.mempool
    rw [recorded.2]
    exact Mempool.empty_consistent ext _
  finish := fun _ recorded => recorded.1
  memory := fun _ _ recorded _ => recorded.1
  crash := fun _ _ _ stages => by
    rcases stages with h | h
    · exact h.1.faithful
    · exact h

theorem Recorded.lasting : Process.Lasting ext config (fun _ => True) (fun _ => True) (fun _ => True)
    (Recorded ext config) fun _ _ _ log => Faithful config log where
  stable := {
    interrupt := fun _ _ recorded => recorded
    admission := fun tx _ recorded => ⟨(Sound.stable ext config).admission tx _ recorded.sound,
      recorded.events,recorded.faithful⟩
    blame := fun text _ recorded => ⟨(Sound.stable ext config).blame text _ recorded.sound,
      recorded.events,recorded.faithful⟩
    reply := fun _ _ _ recorded _ _ => ⟨recorded.sound,recorded.events,recorded.faithful⟩
    ordinary := fun _ _ => trivial
    produce := fun _ _ _ _ _ _ => ⟨trivial,trivial⟩
    accept := fun orders block _ => ⟨_,_,_,_,_,Recorded.acceptance ext config orders block⟩ }
  boot := fun _ disk sent log node faithful built => by
    obtain ⟨sound,pool,⟨genesis,chain⟩,-⟩ := construct_sound ext config built
    have recorded : Recorded ext config ⟨node,[],sent,log⟩ :=
      ⟨sound,by dsimp only; rw [chain]; exact RecordedTo.single _ _,faithful⟩
    refine recoverFromStorage_spec ?_ ?_ ?_ ?_
    · rintro now rfl _; exact recorded
    · rintro now _ _ rfl _ _; exact faithful
    · rintro now _ _ rfl _ _ _; exact recorded
    · rintro now _ _ rfl _ _ _
      exact ⟨_,_,Recorded.recovery ext config _,recorded,pool⟩
  kill := fun _ recorded => recorded.faithful
  queue := fun _ _ recorded _ _ => ⟨recorded.sound,recorded.events,recorded.faithful⟩
  broadcast := fun _ _ _ recorded _ => ⟨recorded.sound,recorded.events,recorded.faithful⟩

/-- The history of a running node, in every reachable state. -/
theorem run_recorded (actions : List Action) :
    (Process.run ext config actions).Holds (Recorded ext config)
      fun _ _ _ log => Faithful config log :=
  (Recorded.lasting ext config).run_holds (fun _ _ _ _ member => by simp at member) actions
    fun _ _ _ _ => trivial

end

theorem Recorded.agrees_iff {ext : Externals} {config : Config} {now : Snapshot}
    (recorded : Recorded ext config now) :
    Agrees config now.node ↔ ∀ event ∈ now.log, event.PayableOn now.node.blockchain.chain := by
  unfold Agrees
  rw [recorded.sound.ledger,ledgerOf,replay_iff]
  cases shape : now.node.blockchain.chain with
  | nil => exact absurd shape now.node.blockchain.nonempty
  | cons genesis rest =>
    rw [List.tail_cons]
    constructor
    · intro payable event member
      cases event with
      | heightSaved => trivial
      | completed => trivial
      | applied block before chain after =>
        rintro ⟨newer,split⟩
        obtain ⟨older,nonempty,rfl,rfl,-⟩ := recorded.faithful _ _ _ _ member
        cases older with
        | nil => exact absurd rfl nonempty
        | cons first older =>
          obtain ⟨rfl,rest_split⟩ := List.cons.inj split
          exact payable older block newer (by rw [← rest_split]; simp)
    · intro payable before block later split
      obtain ⟨after,member⟩ := recorded.events (genesis :: before) block later
        (by rw [shape,split]; rfl) (by simp)
      exact payable _ member ⟨later,by simp [split]⟩

open Reference in
theorem paying_agrees : ∃ node,
    (Process.run libraries (config observerKeys funded false) payingRun).node? = some node ∧
    node.blockchain.chain.length = 2 ∧ Agrees (config observerKeys funded false) node := by
  have ran : (Process.run libraries (config observerKeys funded false)
      payingRun).node?.any (fun node => node.blockchain.chain.length = 2 ∧
        Agrees (config observerKeys funded false) node) = true := by
    rw [payingRun,run_deliver paying_fits]
    decide +kernel
  obtain ⟨node,reached,holds⟩ := (Option.any_eq_true _ _).mp ran
  exact ⟨node,reached,of_decide_eq_true holds⟩

/-- Whatever the path a node took, its accounts are its chain replayed; two nodes with the
same allocations and chain answer alike. -/
theorem ledger_function_of_chain (ext : Externals) (config : Config) (actions : List Action)
    (node : Node) (reached : (Process.run ext config actions).node? = some node) :
    node.state.accounts = ledgerOf config.genesisAllocations node.blockchain.chain ∧
    ∀ (ext' : Externals) (config' : Config) (actions' : List Action) (node' : Node),
      (Process.run ext' config' actions').node? = some node' →
      config'.genesisAllocations = config.genesisAllocations →
      node'.blockchain.chain = node.blockchain.chain →
      ∀ address, node'.getBalance address = node.getBalance address ∧
        node'.getNonce address = node.getNonce address := by
  obtain ⟨now,-,rfl,sound⟩ := (run_sound ext config actions).node reached
  refine ⟨sound.ledger,fun ext' config' actions' node' reached' allocations chain address => ?_⟩
  obtain ⟨now',-,rfl,sound'⟩ := (run_sound ext' config' actions').node reached'
  have accounts : now'.node.state.accounts = now.node.state.accounts := by
    rw [sound.ledger,sound'.ledger,allocations,chain]
  simp only [Node.getBalance,Node.getNonce,StateManager.accountExists,StateManager.getBalance,
    StateManager.getNonce,accounts]
  exact ⟨rfl,rfl⟩

open Reference in
theorem ledger_function_of_chain_paying : ∃ node,
    (Process.run libraries (config observerKeys funded false) payingRun).node? = some node ∧
    node.blockchain.chain.length = 2 ∧
    node.state.accounts = ledgerOf funded node.blockchain.chain := by
  obtain ⟨node,reached,two,-⟩ := paying_agrees
  exact ⟨node,reached,two,(ledger_function_of_chain _ _ _ node reached).1⟩

/-- A node agrees with its chain exactly when each of its blocks could be paid from the ledger
it was applied to. -/
theorem agrees_iff_payable (ext : Externals) (config : Config) (actions : List Action) (node : Node)
    (reached : (Process.run ext config actions).node? = some node) :
    Agrees config node ↔
      ∀ event ∈ (Process.run ext config actions).log, event.PayableOn node.blockchain.chain := by
  obtain ⟨now,up,rfl,recorded⟩ := (run_recorded ext config actions).node reached
  rw [up]
  exact recorded.agrees_iff

open Reference in
theorem agrees_iff_payable_paying : ∃ node,
    (Process.run libraries (config observerKeys funded false) payingRun).node? = some node ∧
    node.blockchain.chain.length = 2 ∧
    ∀ event ∈ (Process.run libraries (config observerKeys funded false) payingRun).log,
      event.PayableOn node.blockchain.chain := by
  obtain ⟨node,reached,two,agrees⟩ := paying_agrees
  exact ⟨node,reached,two,(agrees_iff_payable _ _ _ node reached).mp agrees⟩

open Reference in
/-- Without the coins the same block joins the chain all the same: `addBlock` does not look at
the ledger, and every caller drops what `applyBlock` returns. -/
theorem agrees_unfunded : ¬ ∀ (actions : List Action) (node : Node),
    (Process.run libraries (config observerKeys ∅ false) actions).node? = some node →
      Agrees (config observerKeys ∅ false) node := by
  intro always
  have ran : (Process.run libraries (config observerKeys ∅ false)
      payingRun).node?.any (fun node => ¬ Agrees (config observerKeys ∅ false) node) = true := by
    rw [payingRun,run_deliver paying_fits]
    decide +kernel
  obtain ⟨node,reached,fails⟩ := (Option.any_eq_true _ _).mp ran
  exact of_decide_eq_true fails (always _ node reached)

end TitanCore
