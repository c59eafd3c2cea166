import TitanCore.NodeAnnouncements

/-! Every announcement of a node is paid for: a block's by the growth of the chain, a transaction's
by the place it takes in the pool, which only a block can make free again. -/
namespace TitanCore

def Message.transaction? (msg : Message) : Option Transaction :=
  if msg.type = .newTx then (transactionFromJson msg.payload).toOption else none

def Message.block? (msg : Message) : Option Block :=
  if msg.type = .newBlock then (blockFromJson msg.payload).toOption else none

def Message.announcesTx (hash : Hash) (msg : Message) : Bool :=
  msg.transaction?.any fun tx => tx.hash = hash

def Message.announcesBlock (index : UInt64) (msg : Message) : Bool :=
  msg.block?.any fun block => block.index = index

section messages

@[simp] theorem transaction?_newTx {payload : Json} {tx : Transaction}
    (decoded : transactionFromJson payload = .ok tx) : Message.transaction? ⟨.newTx,payload⟩ = some tx := by
  simp [Message.transaction?,decoded,Except.toOption]

@[simp] theorem block?_newBlock {payload : Json} {block : Block}
    (decoded : blockFromJson payload = .ok block) : Message.block? ⟨.newBlock,payload⟩ = some block := by
  simp [Message.block?,decoded,Except.toOption]

@[simp] theorem transaction?_newBlock (payload : Json) : Message.transaction? ⟨.newBlock,payload⟩ = none := rfl
@[simp] theorem block?_newTx (payload : Json) : Message.block? ⟨.newTx,payload⟩ = none := rfl

theorem Message.silent {msg : Message} (silent : msg.announces = false) :
    msg.transaction? = none ∧ msg.block? = none := by
  simp only [Message.announces,decide_eq_false_iff_not,not_or] at silent
  exact ⟨if_neg silent.1,if_neg silent.2⟩

end messages

def announced (counts : Message → Bool) (sends : List Send) : Nat :=
  sends.countP fun send => counts send.message

/-- A budget for the announcements that are counted. `credit` is what a chain and the hashes the
pool knows allow, `assured` what the chain alone does; an announcement costs one. -/
structure Budget (counts : Message → Bool) (credit : List Block → (Hash → Bool) → Nat)
    (assured : List Block → Nat) : Prop where
  silent : ∀ msg : Message, msg.announces = false → counts msg = false
  covers : ∀ chain known, assured chain ≤ credit chain known
  admitted : ∀ chain known payload tx, transactionFromJson payload = .ok tx → known tx.hash = false →
    credit chain known + (counts ⟨.newTx,payload⟩).toNat ≤ credit chain (Function.update known tx.hash true)
  append : ∀ chain known payload block, blockFromJson payload = .ok block →
    block.index.toNat = chain.length →
    credit chain known + (counts ⟨.newBlock,payload⟩).toNat ≤ assured (chain ++ [block])

def Node.credit (credit : List Block → (Hash → Bool) → Nat) (node : Node) : Nat :=
  credit node.blockchain.chain node.mempool.contains

/-- What was prepared stays within the credit, from a state in which they differed by `spare`
and `debt`. -/
def Within (counts : Message → Bool) (credit : List Block → (Hash → Bool) → Nat) (spare debt : Nat)
    (node : Node) (sends : List Send) : Prop :=
  announced counts sends + spare ≤ node.credit credit + debt

section budgets
variable {ext : Externals} {counts : Message → Bool} {credit : List Block → (Hash → Bool) → Nat}
  {assured : List Block → Nat} {spare debt : Nat}

@[simp] theorem announced_append (first second : List Send) :
    announced counts (first ++ second) = announced counts first + announced counts second :=
  List.countP_append

@[simp] theorem announced_single (send : Send) : announced counts [send] = (counts send.message).toNat := by
  cases told : counts send.message <;> simp [announced,told]

theorem contains_insert (pool : Mempool) (state : StateManager) {tx : Transaction}
    (accepted : (pool.addTransaction ext state tx).1 = true) :
    pool.contains tx.hash = false ∧
      (pool.addTransaction ext state tx).2.contains = Function.update pool.contains tx.hash true := by
  rcases Mempool.addTransaction_cases ext pool state tx with ⟨-,admissible,after⟩ | ⟨refused,-⟩
  · refine ⟨by rw [Mempool.contains,admissible.fresh]; rfl,?_⟩
    funext hash
    rw [after,Mempool.contains]
    by_cases same : hash = tx.hash
    · subst same
      simp
    · rw [Function.update_of_ne same,AList.lookup_insert_ne same]
      rfl
  · rw [accepted] at refused
    cases refused

theorem contains_refused (pool : Mempool) (state : StateManager) {tx : Transaction}
    (refused : (pool.addTransaction ext state tx).1 = false) :
    (pool.addTransaction ext state tx).2.contains = pool.contains := by
  rcases Mempool.addTransaction_cases ext pool state tx with ⟨accepted,-⟩ | ⟨-,-,text,after⟩
  · rw [refused] at accepted
    cases accepted
  · rw [after]
    rfl

/-- An admission gains the credit that its announcement costs. -/
theorem Budget.admission (budget : Budget counts credit assured) {payload : Json} {tx : Transaction}
    (decoded : transactionFromJson payload = .ok tx) (recipient : Recipient) (node : Node) :
    node.credit credit + announced counts (if (node.mempool.addTransaction ext node.state tx).1 then
        some (Send.mk recipient ⟨.newTx,payload⟩) else none).toList ≤
      (node.addTransaction ext tx).credit credit := by
  by_cases accepted : (node.mempool.addTransaction ext node.state tx).1 = true
  · obtain ⟨fresh,after⟩ := contains_insert node.mempool node.state accepted
    have gain := budget.admitted node.blockchain.chain node.mempool.contains payload tx decoded fresh
    rw [← after] at gain
    rw [if_pos accepted,Option.toList_some,announced_single]
    exact gain
  · have same := contains_refused node.mempool node.state (by simpa using accepted)
    rw [if_neg accepted,Node.credit,Node.credit,Node.addTransaction,same]
    exact Nat.le_refl _

/-- A block pays for its announcement with the chain alone, whatever becomes of the pool. -/
theorem Budget.acceptance (budget : Budget counts credit assured) {payload : Json} {block : Block}
    (decoded : blockFromJson payload = .ok block) {node : Node}
    (accepted : (node.blockchain.addBlock ext block).1 = true) :
    node.credit credit + (counts ⟨.newBlock,payload⟩).toNat ≤
      assured (node.addBlock ext block).blockchain.chain := by
  obtain ⟨valid,chain⟩ := Blockchain.addBlock_accepted ext _ _ accepted
  rw [Node.addBlock,chain]
  exact budget.append _ _ payload block decoded valid.index

/-- The chain alone covers what was prepared, and `price` more. -/
def Covered (counts : Message → Bool) (assured : List Block → Nat) (spare debt price : Nat)
    (now : Snapshot) : Prop :=
  announced counts (now.sent ++ now.outbox) + spare + price ≤ assured now.node.blockchain.chain + debt

theorem Budget.within (budget : Budget counts credit assured) {price : Nat} {now : Snapshot} {more : List Send}
    (covered : Covered counts assured spare debt price now) (fits : announced counts more ≤ price) :
    Within counts credit spare debt now.node (now.sent ++ (now.outbox ++ more)) := by
  have enough := budget.covers now.node.blockchain.chain now.node.mempool.contains
  simp only [Within,Node.credit,Covered,announced_append] at covered ⊢
  omega

theorem Budget.halted (budget : Budget counts credit assured) {price : Nat} {now : Snapshot}
    (covered : Covered counts assured spare debt price now) :
    Within counts credit spare debt now.node (now.sent ++ now.outbox) := by
  have none_more : announced counts [] ≤ price := Nat.zero_le price
  have within := budget.within covered none_more
  rwa [List.append_nil] at within

/-- The broadcasts that were not made are lost with the process. -/
theorem Within.died {now : Snapshot} (within : Within counts credit spare debt now.node (now.sent ++ now.outbox)) :
    ∀ node ∈ some now.node, Within counts credit spare debt node now.sent := by
  rintro node ⟨⟩
  rw [Within,announced_append] at within
  rw [Within]
  omega

/-- The stages of an acceptance: `price` is what announcing the block will cost. -/
theorem Budget.stages (budget : Budget counts credit assured) (orders : Nat → IterationOrder)
    (block : Block) (price : Nat) (paid : ∀ node : Node, (node.blockchain.addBlock ext block).1 = true →
      node.credit credit + price ≤ assured (node.addBlock ext block).blockchain.chain) :
    Acceptance ext (fun _ => True) orders block
      (Process.afterwards (fun now => Within counts credit spare debt now.node (now.sent ++ now.outbox))
        fun held _ sent _ => ∀ node ∈ held, Within counts credit spare debt node sent)
      (fun now => Within counts credit spare debt now.node (now.sent ++ now.outbox))
      (Covered counts assured spare debt price) (Covered counts assured spare debt price)
      (Covered counts assured spare debt price) (Covered counts assured spare debt price)
      (Covered counts assured spare debt price) (Covered counts assured spare debt price) where
  refuse := fun now holds refused => by
    have same := Blockchain.addBlock_refused ext now.node.blockchain block refused
    simp only [Within,Node.credit,Snapshot.onNode,Node.addBlock,same] at holds ⊢
    exact holds
  append := fun now holds accepted => by
    have gain := paid now.node accepted
    simp only [Within,Covered,Snapshot.onNode] at holds ⊢
    omega
  apply := fun _ holds => holds
  clean := fun _ holds => holds
  save := fun _ _ _ _ holds _ _ => holds
  count := fun _ _ _ _ holds _ _ => holds
  account := fun _ _ _ _ _ _ holds _ _ => holds
  complete := fun _ _ holds _ => holds
  memory := fun _ holds _ => holds
  crash := fun _ now stages => by
    rcases stages with holds | holds | holds | holds | holds | holds
    · exact holds.died
    all_goals exact (budget.halted holds).died
  fail := fun _ _ now _ stages => by
    rcases stages with holds | holds | holds <;> exact budget.halted holds

theorem Budget.enduring (budget : Budget counts credit assured) (spare debt : Nat) :
    Process.Enduring ext (fun _ => True) (fun _ => True)
      (fun now => Within counts credit spare debt now.node (now.sent ++ now.outbox))
      fun held _ sent _ => ∀ node ∈ held, Within counts credit spare debt node sent where
  announcing := {
    interrupt := fun _ _ holds => holds
    blame := fun _ _ holds => holds
    reply := fun recipient message now holds _ silent => by
      have free := budget.silent message silent
      simp only [Within,Snapshot.send,announced_append,announced_single,free,Bool.toNat_false] at holds ⊢
      exact holds
    admission := fun payload tx recipient now _ decoded holds => by
      have gain : _ ≤ (now.node.addTransaction ext tx).credit credit :=
        budget.admission decoded recipient now.node
      simp only [Within,Snapshot.onNode,Snapshot.queue,announced_append] at holds ⊢
      omega
    accept := fun orders msg block _ carries => by
      have announce : ∀ {price}, announced counts [⟨.others none,msg⟩] ≤ price → ∀ recipient now,
          msg.type = .newBlock → Covered counts assured spare debt price now →
          Within counts credit spare debt now.node (now.sent ++ (now.outbox ++ [⟨recipient,msg⟩])) := by
        intro price fits recipient now _ covered
        refine budget.within covered ?_
        simpa using fits
      cases carries with
      | newBlock decoded =>
        refine ⟨_,_,_,_,_,_,(budget.stages orders block _ fun node => budget.acceptance decoded).bookkeeping,?_,?_⟩
        · exact fun now => budget.halted
        · exact announce (by simp)
      | blocks array member decoded =>
        refine ⟨_,_,_,_,_,_,(budget.stages orders block 0 fun node accepted => ?_).bookkeeping,?_,?_⟩
        · exact (Nat.le_add_right _ _).trans (budget.acceptance decoded accepted)
        · exact fun now => budget.halted
        · intro recipient now type
          cases type }
  kill := fun now holds => holds.died
  broadcast := fun now position send holds found => by
    obtain ⟨inside,rfl⟩ := List.getElem?_eq_some_iff.mp found
    have same : (now.sent ++ [now.outbox[position]] ++ now.outbox.eraseIdx position).Perm
        (now.sent ++ now.outbox) := by
      rw [List.append_assoc]
      exact (List.getElem_cons_eraseIdx_perm inside).append_left _
    have count : announced counts (now.sent ++ [now.outbox[position]] ++ now.outbox.eraseIdx position) =
        announced counts (now.sent ++ now.outbox) := same.countP_eq _
    rw [Within] at holds ⊢
    rw [count]
    exact holds

/-- A transaction is announced when it enters the pool, and leaves it when a block is taken. -/
theorem txBudget (hash : Hash) : Budget (Message.announcesTx hash)
    (fun chain known => chain.length + (known hash).toNat) List.length where
  silent := fun msg silent => by rw [Message.announcesTx,(Message.silent silent).1]; rfl
  covers := fun _ _ => Nat.le_add_right _ _
  admitted := fun chain known payload tx decoded fresh => by
    rw [Message.announcesTx,transaction?_newTx decoded,Option.any_some]
    by_cases same : tx.hash = hash
    · subst same
      simp [fresh]
    · simp [same,Function.update_of_ne (Ne.symm same)]
  append := fun chain known payload block _ _ => by
    have one : (known hash).toNat ≤ 1 := Bool.toNat_le _
    simp only [Message.announcesTx,transaction?_newBlock,Option.any_none,Bool.toNat_false,
      List.length_append,List.length_singleton]
    omega

/-- A block is announced when it gets its place in the chain, which it keeps. -/
theorem blockBudget (index : UInt64) : Budget (Message.announcesBlock index)
    (fun chain _ => if index.toNat < chain.length then 1 else 0)
    (fun chain => if index.toNat < chain.length then 1 else 0) where
  silent := fun msg silent => by rw [Message.announcesBlock,(Message.silent silent).2]; rfl
  covers := fun _ _ => Nat.le_refl _
  admitted := fun chain known payload tx _ _ => by
    simp [Message.announcesBlock]
  append := fun chain known payload block decoded next => by
    rw [Message.announcesBlock,block?_newBlock decoded,Option.any_some,List.length_append,
      List.length_singleton]
    by_cases same : block.index = index
    · subst same
      simp [next]
    · simp only [same,decide_false,Bool.toNat_false]
      split_ifs <;> omega

end budgets
def Message.blocks (msg : Message) : List Block :=
  match msg.type with
  | .newBlock => (blockFromJson msg.payload).toOption.toList
  | .blocks =>
    match msg.payload.at? (str "blocks") with
    | .ok blocksArray => blocksArray.elements.filterMap fun blockJson => (blockFromJson blockJson).toOption
    | .error _ => []
  | _ => []

theorem toOption_eq_some {α : Type} {x : Except Exn α} {a : α} : x.toOption = some a ↔ x = .ok a := by
  cases x <;> simp [Except.toOption]

theorem Message.mem_blocks {msg : Message} {block : Block} : block ∈ msg.blocks ↔ msg.Carries block := by
  obtain ⟨type,payload⟩ := msg
  constructor
  · intro member
    cases type with
    | newBlock => exact .newBlock (toOption_eq_some.mp (Option.mem_toList.mp member))
    | blocks =>
      cases array : payload.at? (str "blocks") with
      | error e => simp [Message.blocks,array] at member
      | ok blocksArray =>
        simp only [Message.blocks,array] at member
        obtain ⟨blockJson,inside,decoded⟩ := List.mem_filterMap.mp member
        exact .blocks array inside (toOption_eq_some.mp decoded)
    | ping => cases member
    | pong => cases member
    | newTx => cases member
    | getBlocks => cases member
  · intro carries
    cases carries with
    | newBlock decoded => exact Option.mem_toList.mpr (toOption_eq_some.mpr decoded)
    | blocks array inside decoded =>
      simp only [Message.blocks,array]
      exact List.mem_filterMap.mpr ⟨_,inside,toOption_eq_some.mpr decoded⟩

theorem Message.carries_block {msg : Message} {block : Block} (announced : msg.block? = some block) :
    msg.Carries block := by
  obtain ⟨type,payload⟩ := msg
  cases type with
  | newBlock => exact .newBlock (toOption_eq_some.mp announced)
  | _ => cases announced

structure Message.Below (height : Nat) (known : Hash → Prop) (msg : Message) : Prop where
  blocks : ∀ block, msg.Carries block → block.index.toNat < height
  transaction : ∀ tx ∈ msg.transaction?, known tx.hash

/-- Nothing but what is below a height and known is on the chain of a node or in its messages,
and what it announces can be read. -/
structure Confined (height : Nat) (known : Hash → Prop) (memory : Option Node) (sends : List Send) : Prop where
  length : ∀ node ∈ memory, node.blockchain.chain.length ≤ height
  chain : ∀ node ∈ memory, ∀ block ∈ node.blockchain.chain, block.index.toNat < height
  messages : ∀ send ∈ sends, send.message.Below height known
  readable : ∀ send ∈ sends, send.message.announces = true →
    send.message.transaction?.isSome ∨ send.message.block?.isSome

section confined
variable {ext : Externals} {height : Nat} {known : Hash → Prop} {now : Snapshot}

/-- The rest of a node does not matter. -/
theorem Confined.frame {node : Node} {sends : List Send} (confined : Confined height known (some node) sends)
    {node' : Node} (same : node'.blockchain.chain = node.blockchain.chain) :
    Confined height known (some node') sends where
  length := by
    rintro _ ⟨⟩
    rw [same]
    exact confined.length node rfl
  chain := by
    rintro _ ⟨⟩
    rw [same]
    exact confined.chain node rfl
  messages := confined.messages
  readable := confined.readable

theorem Confined.say {memory : Option Node} {sends : List Send} (confined : Confined height known memory sends)
    {msg : Message} (below : msg.Below height known)
    (readable : msg.announces = true → msg.transaction?.isSome ∨ msg.block?.isSome) (recipient : Recipient) :
    Confined height known memory (sends ++ [⟨recipient,msg⟩]) := by
  refine { confined with messages := fun send member => ?_, readable := fun send member => ?_ }
  · rcases List.mem_append.mp member with old | new
    · exact confined.messages send old
    · rw [List.mem_singleton.mp new]
      exact below
  · rcases List.mem_append.mp member with old | new
    · exact confined.readable send old
    · rw [List.mem_singleton.mp new]
      exact readable

theorem Confined.fewer {memory : Option Node} {sends fewer : List Send} (confined : Confined height known memory sends)
    (sub : ∀ send ∈ fewer, send ∈ sends) : Confined height known memory fewer :=
  { confined with
    messages := fun send member => confined.messages send (sub send member)
    readable := fun send member => confined.readable send (sub send member) }

theorem Confined.extend {node : Node} {sends : List Send} (confined : Confined height known (some node) sends)
    {block : Block} (accepted : (node.blockchain.addBlock ext block).1 = true)
    (below : block.index.toNat < height) : Confined height known (some (node.addBlock ext block)) sends := by
  obtain ⟨valid,longer⟩ := Blockchain.addBlock_accepted ext _ _ accepted
  have next := valid.index
  refine { confined with length := ?_, chain := ?_ }
  · rintro _ ⟨⟩
    rw [Node.addBlock,longer,List.length_append,List.length_singleton]
    omega
  · rintro _ ⟨⟩ other member
    rw [Node.addBlock,longer] at member
    rcases List.mem_append.mp member with old | new
    · exact confined.chain node rfl other old
    · rw [List.mem_singleton.mp new]
      exact below

theorem Confined.stages (orders : Nat → IterationOrder) {block : Block} (below : block.index.toNat < height)
    {confined : Snapshot → Prop} (means : confined = fun now =>
      Confined height known (some now.node) (now.sent ++ now.outbox)) :
    Acceptance ext (fun _ => True) orders block
      (Process.afterwards confined fun held _ sent _ => Confined height known held sent)
      confined confined confined confined confined confined confined := by
  subst means
  exact {
    refuse := fun now confined refused => confined.frame (Blockchain.addBlock_refused ext _ _ refused)
    append := fun _ confined accepted => confined.extend accepted below
    apply := fun _ confined => confined.frame rfl
    clean := fun _ confined => confined.frame rfl
    save := fun _ _ _ _ confined _ _ => confined.frame rfl
    count := fun _ _ _ _ confined _ _ => confined.frame rfl
    account := fun _ _ _ _ _ _ confined _ _ => confined.frame rfl
    complete := fun _ _ confined _ => confined
    memory := fun _ confined _ => confined
    crash := fun _ now stages => by
      have confined : Confined height known (some now.node) (now.sent ++ now.outbox) := by
        rcases stages with h | h | h | h | h | h <;> exact h
      exact confined.fewer fun send member => List.mem_append_left _ member
    fail := fun _ _ _ _ stages => by rcases stages with h | h | h <;> exact h }

theorem Confined.enduring (height : Nat) (known : Hash → Prop) :
    Process.Enduring ext (fun _ => True) (Message.Below height known)
      (fun now => Confined height known (some now.node) (now.sent ++ now.outbox))
      fun held _ sent _ => Confined height known held sent where
  announcing := {
    interrupt := fun _ _ confined => confined
    blame := fun _ _ confined => confined.frame rfl
    reply := fun recipient message now confined sendable silent => by
      have below : message.Below height known := by
        refine ⟨fun block carries => confined.chain now.node rfl block (sendable.carried carries),?_⟩
        rw [(Message.silent silent).1]
        rintro tx ⟨⟩
      refine (confined.say below (fun loud => ?_) recipient).fewer fun send member => ?_
      · rw [silent] at loud
        cases loud
      · simp only [Snapshot.send,List.mem_append] at member ⊢
        tauto
    admission := fun payload tx recipient now hears decoded confined => by
      have admitted : Confined height known (some (now.node.addTransaction ext tx)) (now.sent ++ now.outbox) :=
        confined.frame rfl
      split_ifs with accepted
      · have said := admitted.say hears (fun _ => .inl (by simp [transaction?_newTx decoded])) recipient
        rwa [List.append_assoc] at said
      · rw [Snapshot.queue_none]
        exact admitted
    accept := fun orders msg block hears carries => by
      refine ⟨_,_,_,_,_,_,(Confined.stages orders (hears.blocks block carries) rfl).bookkeeping,
        fun _ confined => confined,?_⟩
      intro recipient now type confined
      have readable : msg.block?.isSome := by
        cases carries with
        | newBlock decoded => simp [block?_newBlock decoded]
        | blocks => cases type
      have said := confined.say hears (fun _ => .inr readable) recipient
      rwa [List.append_assoc] at said }
  kill := fun now confined => confined.fewer fun send member => List.mem_append_left _ member
  broadcast := fun now position send confined found => by
    refine confined.fewer fun other member => ?_
    have present := List.mem_of_getElem? found
    simp only [List.mem_append,List.mem_singleton] at member ⊢
    rcases member with (old | rfl) | waits
    · exact .inl old
    · exact .inr present
    · exact .inr (List.mem_of_mem_eraseIdx waits)

end confined
end TitanCore
