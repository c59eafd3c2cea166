import TitanCore.Node

/-! Pre- and postconditions of a node's sections, and the steps the acceptance of a block is made of.
What holds after each step is stated once, and the rules carry it through all of them. -/
namespace TitanCore

/-- `pre` holds now, and every fate still to come is an allowed one. -/
def During (allowed : Fate → Prop) (pre : Snapshot → Prop) (exec : Exec) : Prop :=
  (∀ fate ∈ exec.fates, allowed fate) ∧ pre exec.now

/-- Under allowed fates the program takes `pre` to `post`, or is interrupted in `halt`. -/
def Spec (allowed : Fate → Prop) (pre : Snapshot → Prop) (x : NodeM α)
    (post : α → Snapshot → Prop) (halt : Interrupt → Snapshot → Prop) : Prop :=
  Program.Triple (During allowed pre) x (fun a => During allowed (post a))
    fun reason exec => halt reason exec.now

namespace Spec
variable {allowed : Fate → Prop} {pre : Snapshot → Prop} {halt : Interrupt → Snapshot → Prop}

theorem pure {post : α → Snapshot → Prop} {a : α} (holds : ∀ now, pre now → post a now) :
    Spec allowed pre (Pure.pure a) post halt :=
  Program.Triple.pure fun _ start => ⟨start.1,holds _ start.2⟩

theorem stop {post : α → Snapshot → Prop} {reason : Interrupt}
    (holds : ∀ now, pre now → halt reason now) :
    Spec allowed pre (Program.stop reason) post halt :=
  Program.Triple.stop fun _ start => holds _ start.2

theorem bind {x : NodeM β} {f : β → NodeM α} {mid : β → Snapshot → Prop}
    {post : α → Snapshot → Prop} (first : Spec allowed pre x mid halt)
    (second : ∀ b, Spec allowed (mid b) (f b) post halt) : Spec allowed pre (x >>= f) post halt :=
  Program.Triple.bind first second

/-- `bind` with the assertion in between written out. -/
theorem through (mid : β → Snapshot → Prop) {x : NodeM β} {f : β → NodeM α}
    {post : α → Snapshot → Prop} (first : Spec allowed pre x mid halt)
    (second : ∀ b, Spec allowed (mid b) (f b) post halt) : Spec allowed pre (x >>= f) post halt :=
  bind first second

theorem consequence {x : NodeM α} {pre' : Snapshot → Prop} {post post' : α → Snapshot → Prop}
    (spec : Spec allowed pre x post halt) (stronger : ∀ now, pre' now → pre now)
    (weaker : ∀ a now, post a now → post' a now) : Spec allowed pre' x post' halt :=
  Program.Triple.consequence spec (fun _ start => ⟨start.1,stronger _ start.2⟩)
    (fun _ _ outcome => ⟨outcome.1,weaker _ _ outcome.2⟩) fun _ _ stopped => stopped

theorem weaken (pre : Snapshot → Prop) {x : NodeM α} {pre' : Snapshot → Prop}
    {post : α → Snapshot → Prop} (spec : Spec allowed pre x post halt)
    (stronger : ∀ now, pre' now → pre now) : Spec allowed pre' x post halt :=
  consequence spec stronger fun _ _ outcome => outcome

theorem halts {x : NodeM α} {post : α → Snapshot → Prop} {halt' : Interrupt → Snapshot → Prop}
    (spec : Spec allowed pre x post halt)
    (weaker : ∀ reason now, halt reason now → halt' reason now) : Spec allowed pre x post halt' :=
  Program.Triple.consequence spec (fun _ start => start) (fun _ _ outcome => outcome)
    fun _ _ stopped => weaker _ _ stopped

theorem both {x : NodeM α} {pre' : Snapshot → Prop} {post post' : α → Snapshot → Prop}
    {halt' : Interrupt → Snapshot → Prop} (first : Spec allowed pre x post halt)
    (second : Spec allowed pre' x post' halt') :
    Spec allowed (fun now => pre now ∧ pre' now) x (fun a now => post a now ∧ post' a now)
      (fun reason now => halt reason now ∧ halt' reason now) :=
  Program.Triple.consequence (Program.Triple.both first second)
    (fun _ start => ⟨⟨start.1,start.2.1⟩,⟨start.1,start.2.2⟩⟩)
    (fun _ _ outcome => ⟨outcome.1.1,outcome.1.2,outcome.2.2⟩) fun _ _ stopped => stopped

theorem update {f : Snapshot → Snapshot} {post : Unit → Snapshot → Prop}
    (holds : ∀ now, pre now → post () (f now)) :
    Spec allowed pre (TitanCore.update f) post halt :=
  Program.Triple.modify fun _ start => ⟨start.1,holds _ start.2⟩

theorem getNode_bind {f : Node → NodeM α} {post : α → Snapshot → Prop}
    (rest : ∀ node, Spec allowed (fun now => pre now ∧ now.node = node) (f node) post halt) :
    Spec allowed pre (getNode >>= f) post halt := fun exec start =>
  rest exec.now.node exec ⟨start.1,start.2,rfl⟩

theorem lift {x : Except Exn α} {post : α → Snapshot → Prop}
    (done : ∀ a, x = .ok a → ∀ now, pre now → post a now)
    (failed : ∀ e, x = .error e → ∀ now, pre now → halt (.exception e) now) :
    Spec allowed pre (Program.lift .exception x) post halt :=
  Program.Triple.lift (fun a ok _ start => ⟨start.1,done a ok _ start.2⟩)
    fun e error _ start => failed e error _ start.2

theorem ite {c : Prop} [Decidable c] {x y : NodeM α} {post : α → Snapshot → Prop}
    (yes : c → Spec allowed pre x post halt) (no : ¬ c → Spec allowed pre y post halt) :
    Spec allowed pre (if c then x else y) post halt :=
  Program.Triple.ite yes no

/-- The fate taken is allowed; running out of fates is proceeding. -/
theorem nextFate : Spec allowed pre TitanCore.nextFate
    (fun fate now => (fate = .proceed ∨ allowed fate) ∧ pre now) halt := by
  intro exec start
  unfold TitanCore.nextFate
  cases fates : exec.fates with
  | nil =>
    refine ⟨?_,.inl rfl,start.2⟩
    rw [fates]
    simp
  | cons fate rest =>
    have each := start.1
    rw [fates] at each
    exact ⟨fun later member => each later (List.mem_cons_of_mem _ member),
      .inr (each fate (by simp)),start.2⟩

theorem crashPoint (crash : allowed .crash → ∀ now, pre now → halt .crash now) :
    Spec allowed pre TitanCore.crashPoint (fun _ => pre) halt := by
  refine bind nextFate fun fate => ?_
  cases fate with
  | crash =>
    refine stop fun now start => ?_
    rcases start.1 with impossible | possible
    · cases impossible
    · exact crash possible now start.2
  | proceed => exact pure fun _ start => start.2
  | fail text => exact pure fun _ start => start.2

/-- A write: done, failed with a status, not attempted without storage, or preceded by a
crash. -/
theorem write {save : Node → Storage → Status → Except Exn Storage} {post : Unit → Snapshot → Prop}
    (sound : ∀ node storage, ∃ saved, save node storage none = .ok saved)
    (crash : allowed .crash → ∀ now, pre now → halt .crash now)
    (failed : ∀ text, allowed (.fail text) → ∀ now storage e, pre now →
      now.node.storage = some storage → save now.node storage (some text) = .error e →
      halt (.exception e) now)
    (saved : ∀ now storage status after, pre now → now.node.storage = some storage →
      save now.node storage status = .ok after →
      post () (now.onNode (Node.withStorage after)))
    (memory : ∀ now, pre now → now.node.storage = none → post () now) :
    Spec allowed pre (TitanCore.write save) post halt := by
  refine bind nextFate fun fate => getNode_bind fun node => ?_
  cases held : node.storage with
  | none =>
    refine pure fun now start => memory now start.1.2 ?_
    rw [start.2,held]
  | some storage =>
    cases fate with
    | crash =>
      refine stop fun now start => ?_
      rcases start.1.1 with impossible | possible
      · cases impossible
      · exact crash possible now start.1.2
    | proceed =>
      obtain ⟨after,done⟩ := sound node storage
      refine through (fun a now => a = after ∧ pre now ∧ now.node = node)
        (lift (fun a ok now start => ?_) (fun e error => ?_)) fun a => update fun now start => ?_
      · rw [done,Except.ok.injEq] at ok
        exact ⟨ok.symm,start.1.2,start.2⟩
      · rw [done] at error
        cases error
      · obtain ⟨rfl,before,same⟩ := start
        exact saved now storage none a before (by rw [same,held]) (by rw [same,done])
    | fail text =>
      refine through (fun a now => save node storage (some text) = .ok a ∧ pre now ∧
        now.node = node) (lift (fun a ok now start => ⟨ok,start.1.2,start.2⟩)
        (fun e error now start => ?_)) fun a => update fun now start => ?_
      · rcases start.1.1 with impossible | possible
        · cases impossible
        · exact failed text possible now storage e start.1.2 (by rw [start.2,held])
            (by rw [start.2,error])
      · obtain ⟨ok,before,same⟩ := start
        exact saved now storage (some text) a before (by rw [same,held]) (by rw [same,ok])

end Spec

/-- The assertions an acceptance passes through, and what its steps must establish, the account records
apart:
`rest` before it, `appended` with the block on the chain only, `applied` with the
ledger updated, `cleaned` with the pool rebuilt, `stored` with the block on disk, `counted`
with the height on disk, `kept` after it. -/
structure AcceptanceSteps (ext : Externals) (allowed : Fate → Prop) (orders : Nat → IterationOrder)
    (block : Block) (halt : Interrupt → Snapshot → Prop)
    (rest appended applied cleaned stored counted kept : Snapshot → Prop) : Prop where
  refuse : ∀ now, rest now → (now.node.blockchain.addBlock ext block).1 = false →
    rest (now.onNode (Node.addBlock ext block))
  append : ∀ now, rest now → (now.node.blockchain.addBlock ext block).1 = true →
    appended (now.onNode (Node.addBlock ext block))
  apply : ∀ now, appended now → applied ((now.onNode (Node.applyBlock block)).record
    (.applied block now.node.state.accounts now.node.blockchain.chain
      (now.node.state.applyBlock block).2.accounts))
  clean : ∀ now, applied now → cleaned ((now.onNode (Node.removeMinedTransactions block)).onNode
    (Node.revalidate ext orders))
  save : ∀ now storage status after, cleaned now → now.node.storage = some storage →
    storage.saveBlock ext block status = .ok after →
    stored (now.onNode (Node.withStorage after))
  count : ∀ now storage status after, stored now → now.node.storage = some storage →
    storage.saveChainHeight now.node.blockchain.getHeight status = .ok after →
    counted ((now.onNode (Node.withStorage after)).record (.heightSaved block))
  memory : ∀ now, cleaned now → now.node.storage = none →
    kept (now.record (.completed block none))
  crash : allowed .crash → ∀ now, rest now ∨ appended now ∨ applied now ∨ cleaned now ∨
    stored now ∨ counted now → halt .crash now
  fail : ∀ text, allowed (.fail text) → ∀ now e, cleaned now ∨ stored now ∨ counted now →
    halt (.exception e) now

/-- An acceptance that does not depend on what is put on record for an account. -/
structure Acceptance (ext : Externals) (allowed : Fate → Prop) (orders : Nat → IterationOrder)
    (block : Block) (halt : Interrupt → Snapshot → Prop)
    (rest appended applied cleaned stored counted kept : Snapshot → Prop) : Prop
    extends AcceptanceSteps ext allowed orders block halt rest appended applied cleaned stored counted kept where
  account : ∀ now storage addr acct status after, counted now → now.node.storage = some storage →
    storage.saveAccountState ext addr acct status = .ok after →
    counted (now.onNode (Node.withStorage after))
  complete : ∀ now storage, counted now → now.node.storage = some storage →
    kept (now.record (.completed block (some storage)))

section
variable {ext : Externals} {allowed : Fate → Prop} {orders : Nat → IterationOrder} {block : Block}
  {rest appended applied cleaned stored counted kept : Snapshot → Prop}
  {halt : Interrupt → Snapshot → Prop}

theorem addBlock_spec (refused accepted : Snapshot → Prop)
    (crash : allowed .crash → ∀ now, rest now → halt .crash now)
    (refuse : ∀ now, rest now → (now.node.blockchain.addBlock ext block).1 = false →
      refused (now.onNode (Node.addBlock ext block)))
    (append : ∀ now, rest now → (now.node.blockchain.addBlock ext block).1 = true →
      accepted (now.onNode (Node.addBlock ext block))) :
    Spec allowed rest (addBlock ext block)
      (fun result now => if result = true then accepted now else refused now) halt := by
  refine Spec.bind (Spec.crashPoint crash) fun _ => Spec.getNode_bind fun node => ?_
  refine Spec.through (fun _ now => if (node.blockchain.addBlock ext block).1 = true then
    accepted now else refused now) (Spec.update fun now start => ?_) fun _ => Spec.pure fun _ h => h
  obtain ⟨before,rfl⟩ := start
  split_ifs with result
  · exact append now before result
  · exact refuse now before (by simpa using result)

theorem applyBlock_spec (crash : allowed .crash → ∀ now, appended now → halt .crash now)
    (apply : ∀ now, appended now → applied ((now.onNode (Node.applyBlock block)).record
      (.applied block now.node.state.accounts now.node.blockchain.chain
        (now.node.state.applyBlock block).2.accounts))) :
    Spec allowed appended (applyBlock block) (fun _ => applied) halt := by
  refine Spec.bind (Spec.crashPoint crash) fun _ => Spec.getNode_bind fun node => ?_
  refine Spec.through (fun _ now => ∃ before, appended before ∧ before.node = node ∧
    now = before.onNode (Node.applyBlock block)) (Spec.update fun now start =>
      ⟨now,start.1,start.2,rfl⟩) fun _ => Spec.update fun now start => ?_
  obtain ⟨before,holds,rfl,rfl⟩ := start
  exact apply before holds

def Transaction.parties (ext : Externals) (tx : Transaction) : List Address :=
  [deriveAddress ext tx.senderPublicKey,tx.recipient]

def Block.parties (ext : Externals) (block : Block) : List Address :=
  block.transactions.flatMap (Transaction.parties ext)

/-- An acceptance that follows the account records: each write files the account as it is, and in
the end all parties of the block are on record. -/
structure Bookkeeping (ext : Externals) (allowed : Fate → Prop) (orders : Nat → IterationOrder)
    (block : Block) (halt : Interrupt → Snapshot → Prop)
    (rest appended applied cleaned stored counted kept : Snapshot → Prop) : Prop
    extends AcceptanceSteps ext allowed orders block halt rest appended applied cleaned stored counted kept where
  account : ∀ now storage addr acct status after, counted now → now.node.storage = some storage →
    now.node.state.accounts.lookup addr = some acct →
    storage.saveAccountState ext addr acct status = .ok after →
    counted (now.onNode (Node.withStorage after))
  complete : ∀ now storage, counted now → now.node.storage = some storage →
    (∀ addr ∈ block.parties ext, storage.Files ext now.node.state.accounts addr) →
    kept (now.record (.completed block (some storage)))

namespace Bookkeeping

/-- A running account loop: what holds of it, and who is on record so far. -/
structure Filing (ext : Externals) (counted : Snapshot → Prop) (done : List Address) (now : Snapshot) :
    Prop where
  counted : counted now
  filed : ∃ storage, now.node.storage = some storage ∧
    ∀ addr ∈ done, storage.Files ext now.node.state.accounts addr

theorem saveAccount_spec (proof : Bookkeeping ext allowed orders block halt rest appended applied
    cleaned stored counted kept) (done : List Address) (addr : Address) :
    Spec allowed (Filing ext counted done) (saveAccount ext addr)
      (fun _ => Filing ext counted (done ++ [addr])) halt := by
  refine Spec.getNode_bind fun node => Spec.ite (fun present => ?_) fun absent => Spec.pure fun now start => ?_
  · refine Spec.write (fun _ _ => ⟨_,rfl⟩) (fun possible now start => ?_) ?_ ?_ ?_
    · exact proof.crash possible now (by simp [start.1.counted])
    · intro text possible now storage e start _ _
      exact proof.fail text possible now e (by simp [start.1.counted])
    · intro now storage status after start held saved
      obtain ⟨⟨counted,storage',held',filed⟩,rfl⟩ := start
      rw [held] at held'
      obtain rfl := Option.some.inj held'
      have account := StateManager.lookup_of_accountExists present
      refine ⟨proof.account now storage addr _ status after counted held account saved,after,rfl,?_⟩
      intro other member
      rcases List.mem_append.mp member with old | new
      · exact (filed other old).saveAccountState account saved
      · rw [List.mem_singleton.mp new]
        exact Storage.Files.of_save account saved
    · intro now start gone
      obtain ⟨storage,held,-⟩ := start.1.filed
      rw [held] at gone
      cases gone
  · obtain ⟨⟨counted,storage,held,filed⟩,rfl⟩ := start
    refine ⟨counted,storage,held,fun other member => ?_⟩
    rcases List.mem_append.mp member with old | new
    · exact filed other old
    · rw [List.mem_singleton.mp new]
      intro acct account
      refine absurd ?_ absent
      rw [StateManager.accountExists,account]
      rfl

theorem saveAccounts_spec (proof : Bookkeeping ext allowed orders block halt rest appended applied
    cleaned stored counted kept) (done : List Address) (transactions : List Transaction) :
    Spec allowed (Filing ext counted done) (saveAccounts ext transactions)
      (fun _ => Filing ext counted (done ++ transactions.flatMap (Transaction.parties ext))) halt := by
  induction transactions generalizing done with
  | nil =>
    rw [List.flatMap_nil,List.append_nil]
    exact Spec.pure fun _ h => h
  | cons tx later ih =>
    have parties : done ++ (tx :: later).flatMap (Transaction.parties ext) =
        (done ++ [deriveAddress ext tx.senderPublicKey] ++ [tx.recipient]) ++
          later.flatMap (Transaction.parties ext) := by
      simp [Transaction.parties]
    rw [parties]
    exact Spec.bind (proof.saveAccount_spec _ _) fun _ =>
      Spec.bind (proof.saveAccount_spec _ _) fun _ => ih _

theorem afterBlockAccepted_spec (proof : Bookkeeping ext allowed orders block halt rest appended
    applied cleaned stored counted kept) :
    Spec allowed applied (afterBlockAccepted ext orders block) (fun _ => kept) halt := by
  refine Spec.bind (Spec.crashPoint fun possible now start =>
    proof.crash possible now (by simp [start])) fun _ => ?_
  refine Spec.through (fun _ now => ∃ before, applied before ∧
    now = before.onNode (Node.removeMinedTransactions block)) (Spec.update fun now start =>
      ⟨now,start,rfl⟩) fun _ => ?_
  refine Spec.through (fun _ => cleaned) (Spec.update fun now start => ?_) fun _ => ?_
  · obtain ⟨before,holds,rfl⟩ := start
    exact proof.clean before holds
  refine Spec.getNode_bind fun node => Spec.ite (fun present => ?_) fun absent => ?_
  · refine Spec.through (fun _ now => stored now ∧ now.node.storage.isSome)
      (Spec.write (fun _ _ => ⟨_,rfl⟩) (fun possible now start =>
        proof.crash possible now (by simp [start.1])) (fun text possible now storage e start _ _ =>
        proof.fail text possible now e (by simp [start.1])) (fun now storage status after start held
        done => ⟨proof.save now storage status after start.1 held done,rfl⟩) ?_) fun _ => ?_
    · intro now start gone
      rw [← start.2,gone] at present
      cases present
    refine Spec.through (fun _ now => ∃ before storage status after, stored before ∧
        before.node.storage = some storage ∧
        storage.saveChainHeight before.node.blockchain.getHeight status = .ok after ∧
        now = before.onNode (Node.withStorage after))
      (Spec.write (fun _ _ => ⟨_,rfl⟩) (fun possible now start =>
        proof.crash possible now (by simp [start.1])) (fun text possible now storage e start _ _ =>
        proof.fail text possible now e (by simp [start.1])) (fun now storage status after start held
        done => ⟨now,storage,status,after,start.1,held,done,rfl⟩) ?_) fun _ => ?_
    · intro now start gone
      have there := start.2
      rw [gone] at there
      cases there
    refine Spec.through (fun _ => Filing ext counted []) (Spec.update fun now start => ?_) fun _ => ?_
    · obtain ⟨before,storage,status,after,holds,held,done,rfl⟩ := start
      exact ⟨proof.count before storage status after holds held done,after,rfl,List.forall_mem_nil _⟩
    refine Spec.bind (proof.saveAccounts_spec [] _) fun _ => Spec.update fun now start => ?_
    obtain ⟨storage,held,filed⟩ := start.filed
    simp only [held]
    exact proof.complete now storage start.counted held filed
  · refine Spec.update fun now start => ?_
    have none_held : now.node.storage = none := by
      rw [start.2]
      simpa using absent
    simp only [none_held]
    exact proof.memory now start.1 none_held

/-- A refused block leaves `rest`, an accepted one establishes `kept`. -/
theorem acceptBlock_spec (proof : Bookkeeping ext allowed orders block halt rest appended applied
    cleaned stored counted kept) :
    Spec allowed rest (acceptBlock ext orders block)
      (fun accepted now => if accepted = true then kept now else rest now) halt := by
  refine Spec.bind (addBlock_spec rest appended (fun possible now start => proof.crash possible now (.inl start))
    proof.refuse proof.append) fun accepted => Spec.ite (fun yes => ?_) fun no => ?_
  · refine Spec.weaken appended ?_ fun now start => by simpa [yes] using start
    exact Spec.bind (applyBlock_spec (fun possible now start =>
      proof.crash possible now (.inr (.inl start))) proof.apply) fun _ =>
      Spec.bind proof.afterBlockAccepted_spec fun _ => Spec.pure fun _ h => by simpa using h
  · exact Spec.pure fun now start => by simpa [no] using start

end Bookkeeping

namespace Acceptance

/-- What does not depend on the account records. -/
theorem bookkeeping (proof : Acceptance ext allowed orders block halt rest appended applied
    cleaned stored counted kept) :
    Bookkeeping ext allowed orders block halt rest appended applied cleaned stored counted kept :=
  { proof.toAcceptanceSteps with
    account := fun now storage addr acct status after start held _ done =>
      proof.account now storage addr acct status after start held done
    complete := fun now storage start held _ => proof.complete now storage start held }

theorem afterBlockAccepted_spec (proof : Acceptance ext allowed orders block halt rest appended
    applied cleaned stored counted kept) :
    Spec allowed applied (afterBlockAccepted ext orders block) (fun _ => kept) halt :=
  proof.bookkeeping.afterBlockAccepted_spec

theorem acceptBlock_spec (proof : Acceptance ext allowed orders block halt rest appended applied
    cleaned stored counted kept) :
    Spec allowed rest (acceptBlock ext orders block)
      (fun accepted now => if accepted = true then kept now else rest now) halt :=
  proof.bookkeeping.acceptBlock_spec

theorem frame {holds : Snapshot → Prop} (only : ∀ now later, later.sent = now.sent →
      later.outbox = now.outbox → holds now → holds later)
    (halts : ∀ reason now, holds now → halt reason now) :
    Acceptance ext allowed orders block halt holds holds holds holds holds holds holds where
  refuse := fun now start _ => only now _ rfl rfl start
  append := fun now start _ => only now _ rfl rfl start
  apply := fun now start => only now _ rfl rfl start
  clean := fun now start => only now _ rfl rfl start
  save := fun now _ _ _ start _ _ => only now _ rfl rfl start
  count := fun now _ _ _ start _ _ => only now _ rfl rfl start
  account := fun now _ _ _ _ _ start _ _ => only now _ rfl rfl start
  complete := fun now _ start _ => only now _ rfl rfl start
  memory := fun now start _ => only now _ rfl rfl start
  crash := fun _ now stages => halts _ now (by rcases stages with h | h | h | h | h | h <;> exact h)
  fail := fun _ _ now _ stages => halts _ now (by rcases stages with h | h | h <;> exact h)

theorem withBlock (proof : Acceptance ext allowed orders block halt rest appended applied cleaned
    stored counted kept) :
    Acceptance ext allowed orders block halt rest
      (fun now => appended now ∧ block ∈ now.node.blockchain.chain)
      (fun now => applied now ∧ block ∈ now.node.blockchain.chain)
      (fun now => cleaned now ∧ block ∈ now.node.blockchain.chain)
      (fun now => stored now ∧ block ∈ now.node.blockchain.chain)
      (fun now => counted now ∧ block ∈ now.node.blockchain.chain)
      (fun now => kept now ∧ block ∈ now.node.blockchain.chain) where
  refuse := proof.refuse
  append := fun now start accepted => by
    refine ⟨proof.append now start accepted,?_⟩
    change block ∈ (now.node.blockchain.addBlock ext block).2.chain
    rw [(Blockchain.addBlock_accepted ext _ _ accepted).2]
    simp
  apply := fun now start => ⟨proof.apply now start.1,start.2⟩
  clean := fun now start => ⟨proof.clean now start.1,start.2⟩
  save := fun now storage status after start held done =>
    ⟨proof.save now storage status after start.1 held done,start.2⟩
  count := fun now storage status after start held done =>
    ⟨proof.count now storage status after start.1 held done,start.2⟩
  account := fun now storage addr acct status after start held done =>
    ⟨proof.account now storage addr acct status after start.1 held done,start.2⟩
  complete := fun now storage start held => ⟨proof.complete now storage start.1 held,start.2⟩
  memory := fun now start held => ⟨proof.memory now start.1 held,start.2⟩
  crash := fun possible now stages => proof.crash possible now (by
    rcases stages with h | h | h | h | h | h <;> simp [h])
  fail := fun text possible now e stages => proof.fail text possible now e (by
    rcases stages with h | h | h <;> simp [h])

theorem both {rest' appended' applied' cleaned' stored' counted' kept' : Snapshot → Prop}
    {halt' halted : Interrupt → Snapshot → Prop}
    (proof : Acceptance ext allowed orders block halt rest appended applied cleaned stored counted
      kept)
    (other : Acceptance ext allowed orders block halt' rest' appended' applied' cleaned' stored'
      counted' kept')
    (halts : ∀ reason now, halt reason now → halt' reason now → halted reason now) :
    Acceptance ext allowed orders block halted (fun now => rest now ∧ rest' now)
      (fun now => appended now ∧ appended' now) (fun now => applied now ∧ applied' now)
      (fun now => cleaned now ∧ cleaned' now) (fun now => stored now ∧ stored' now)
      (fun now => counted now ∧ counted' now) (fun now => kept now ∧ kept' now) where
  refuse := fun now start refused =>
    ⟨proof.refuse now start.1 refused,other.refuse now start.2 refused⟩
  append := fun now start accepted =>
    ⟨proof.append now start.1 accepted,other.append now start.2 accepted⟩
  apply := fun now start => ⟨proof.apply now start.1,other.apply now start.2⟩
  clean := fun now start => ⟨proof.clean now start.1,other.clean now start.2⟩
  save := fun now storage status after start held done =>
    ⟨proof.save now storage status after start.1 held done,
      other.save now storage status after start.2 held done⟩
  count := fun now storage status after start held done =>
    ⟨proof.count now storage status after start.1 held done,
      other.count now storage status after start.2 held done⟩
  account := fun now storage addr acct status after start held done =>
    ⟨proof.account now storage addr acct status after start.1 held done,
      other.account now storage addr acct status after start.2 held done⟩
  complete := fun now storage start held =>
    ⟨proof.complete now storage start.1 held,other.complete now storage start.2 held⟩
  memory := fun now start held => ⟨proof.memory now start.1 held,other.memory now start.2 held⟩
  crash := fun possible now stages => by
    rcases stages with h | h | h | h | h | h <;>
      exact halts _ _ (proof.crash possible now (by simp [h])) (other.crash possible now (by simp [h]))
  fail := fun text possible now e stages => by
    rcases stages with h | h | h <;>
      exact halts _ _ (proof.fail text possible now e (by simp [h]))
        (other.fail text possible now e (by simp [h]))

end Acceptance
end

end TitanCore
