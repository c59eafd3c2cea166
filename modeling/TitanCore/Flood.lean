import Mathlib.Algebra.Order.BigOperators.Group.Finset
import Mathlib.Data.Finset.Lattice.Fold
import Mathlib.Order.Lattice.Nat
import TitanCore.NodeBudget

/-! Floods end. Nodes pass on what they take to all peers but one, on any graph; a block is passed
on once, a transaction once for each block that lets it in again. -/
namespace TitanCore

/-- What each element is counted by, at least once, in a finite family of counts. -/
theorem countP_le_sum {α κ : Type} (family : Finset κ) (p : α → Bool) (q : κ → α → Bool) {elements : List α}
    (each : ∀ a ∈ elements, p a = true → ∃ k ∈ family, q k a = true) :
    elements.countP p ≤ ∑ k ∈ family, elements.countP (q k) := by
  induction elements with
  | nil => simp
  | cons a rest ih =>
    have later := ih fun other member => each other (List.mem_cons_of_mem _ member)
    simp only [List.countP_cons,Finset.sum_add_distrib]
    have here : (if p a = true then 1 else 0) ≤ ∑ k ∈ family, if q k a = true then 1 else 0 := by
      split_ifs with counted
      · obtain ⟨k,member,found⟩ := each a List.mem_cons_self counted
        calc 1 = if q k a = true then 1 else 0 := (if_pos found).symm
          _ ≤ _ := Finset.single_le_sum (f := fun k => if q k a = true then 1 else 0)
            (fun _ _ => Nat.zero_le _) member
      · exact Nat.zero_le _
    omega

def Send.copies (peers : Finset Nat) (send : Send) : Nat :=
  match send.recipient with
  | .peer id => if id ∈ peers then 1 else 0
  | .others none => peers.card
  | .others (some exclude) => (peers.erase exclude).card

def gossipCopies (peers : Finset Nat) (sends : List Send) : Nat :=
  ((sends.filter fun send => send.message.announces).map (Send.copies peers)).sum

theorem Send.copies_le (peers : Finset Nat) (send : Send) : send.copies peers ≤ peers.card := by
  unfold Send.copies
  split
  · next id _ =>
    split_ifs with connected
    · exact Finset.card_pos.mpr ⟨id,connected⟩
    · exact Nat.zero_le _
  · exact Nat.le_refl _
  · exact Finset.card_le_card (Finset.erase_subset _ _)

theorem gossipCopies_le (peers : Finset Nat) (sends : List Send) :
    gossipCopies peers sends ≤ peers.card * announced Message.announces sends := by
  have each : ((sends.filter fun send => send.message.announces).map (Send.copies peers)).sum ≤
      ((sends.filter fun send => send.message.announces).map fun _ => peers.card).sum :=
    List.sum_le_sum fun send _ => send.copies_le peers
  rw [List.map_const',List.sum_replicate_nat,← List.countP_eq_length_filter,Nat.mul_comm] at each
  exact each

namespace Process

def height (process : Process) : Nat := process.memory?.elim 0 fun node => node.blockchain.chain.length

def blocks (process : Process) : List Block :=
  process.memory?.elim [] (fun node => node.blockchain.chain) ++
    process.prepared.flatMap fun send => send.message.blocks

def hashes (process : Process) : List Hash :=
  (process.prepared.filterMap fun send => send.message.transaction?).map Transaction.hash

theorem sent_prefix_prepared (process : Process) : process.sent <+: process.prepared := by
  cases process with
  | up now => exact List.prefix_append _ _
  | down => exact List.prefix_refl _

end Process

/-- A message as it arrives: a null payload is sent as an empty object. -/
def Message.arrived (msg : Message) : Message :=
  { msg with payload := if msg.payload.isNull then .object [] else msg.payload }

/-- An empty object is no transaction and holds no block. -/
theorem Message.Below.arrived {height : Nat} {known : Hash → Prop} {msg : Message}
    (below : msg.Below height known) : msg.arrived.Below height known := by
  by_cases null : msg.payload.isNull = true
  · rw [Message.arrived,if_pos null]
    obtain ⟨type,payload⟩ := msg
    refine ⟨fun block carries => ?_,fun tx member => ?_⟩
    · cases carries with
      | newBlock decoded => cases decoded
      | blocks array => cases array
    · cases type <;> cases member
  · rw [Message.arrived,if_neg null]
    exact below

section network
variable {ι : Type} (ext : Externals) (config : ι → Config)

/-- Each node was started, on whatever its data directory held, and has not done anything yet. -/
def Started (world : ι → Process) : Prop :=
  ∀ i, ∃ disk fates now, world i = .up now ∧
    Process.boot ext (config i) fates (.down none disk [] []) = .up now

inductive Spread [DecidableEq ι] (possible : (ι → Process) → Action → Prop) (start : ι → Process) : (ι → Process) → Prop
  | refl : Spread possible start start
  | step {world : ι → Process} (spread : Spread possible start world) (i : ι) (action : Action)
      (may : possible world action) :
      Spread possible start (Function.update world i ((world i).step ext (config i) action))

def Unrestarted (_ : ι → Process) (action : Action) : Prop := action.boots = false

/-- Nothing new is injected: broadcasts that wait are made, peers connect, nodes die, and what
arrives was sent by some node, in any order and any number of times. -/
def Echo (world : ι → Process) (action : Action) : Prop :=
  match action with
  | .broadcast _ | .kill | .peerConnected _ => True
  | .receive _ _ _ _ => ∀ msg, action.Brings ext msg →
    ∃ j, ∃ send ∈ (world j).sent, msg = send.message.arrived
  | _ => False

/-- A bound on the heights the nodes can reach with the blocks there are. -/
def reach [Fintype ι] (world : ι → Process) : Nat :=
  Finset.univ.sup fun i => max (world i).height
    (((world i).blocks.map fun block => block.index.toNat + 1).foldr max 0)

def circulating [Fintype ι] (world : ι → Process) : Finset Hash :=
  Finset.univ.biUnion fun i => (world i).hashes.toFinset

variable {ext config} {start world : ι → Process}

/-- A node that was just started has announced nothing. -/
theorem Started.memory (started : Started ext config start) (i : ι) :
    (start i).memory?.isSome ∧ (start i).prepared = [] := by
  obtain ⟨disk,fates,now,up,booted⟩ := started i
  rw [up]
  refine ⟨rfl,?_⟩
  cases built : construct ext (config i) disk with
  | error e => simp [Process.boot,built] at booted
  | ok node =>
    rcases Process.boot_outcome ext (config i) none built (recoverFromStorage_quiet ext node [] [])
      (fun _ _ => trivial) with ⟨after,up',quiet⟩ | ⟨_,_,down,-⟩
    · rw [booted] at up'
      obtain rfl := Process.up.inj up'
      rw [Process.prepared,quiet.1,quiet.2]
      rfl
    · rw [booted] at down
      cases down

theorem height_of_memory {process : Process} {node : Node} (held : process.memory? = some node) :
    process.height = node.blockchain.chain.length := by
  rw [Process.height,held]
  rfl

theorem confined_iff {height : Nat} {known : Hash → Prop} (process : Process) :
    process.Holds (fun now => Confined height known (some now.node) (now.sent ++ now.outbox))
      (fun held _ sent _ => Confined height known held sent) ↔
    Confined height known process.memory? process.prepared := by
  cases process <;> rfl

/-- What is announced is a block below the height or a known transaction. -/
theorem Confined.announced_le {height : Nat} {known : Finset Hash} {memory : Option Node} {sends : List Send}
    (confined : Confined height (· ∈ known) memory sends) : announced Message.announces sends ≤
      ∑ k ∈ Finset.range height, announced (Message.announcesBlock (UInt64.ofNat k)) sends +
        ∑ hash ∈ known, announced (Message.announcesTx hash) sends := by
  have each : ∀ send ∈ sends, send.message.announces = true →
      ∃ kind ∈ (Finset.range height).disjSum known, Sum.elim
        (fun k (send : Send) => send.message.announcesBlock (UInt64.ofNat k))
        (fun hash send => send.message.announcesTx hash) kind send = true := by
    intro send member loud
    have below := confined.messages send member
    rcases confined.readable send member loud with readable | readable
    · obtain ⟨tx,found⟩ := Option.isSome_iff_exists.mp readable
      refine ⟨.inr tx.hash,Finset.inr_mem_disjSum.mpr (below.transaction tx found),?_⟩
      simp [Message.announcesTx,found]
    · obtain ⟨block,found⟩ := Option.isSome_iff_exists.mp readable
      refine ⟨.inl block.index.toNat,Finset.inl_mem_disjSum.mpr (Finset.mem_range.mpr
        (below.blocks block (Message.carries_block found))),?_⟩
      simp [Message.announcesBlock,found]
  have counted := countP_le_sum _ _ _ each
  rw [Finset.sum_disjSum] at counted
  exact counted

theorem announced_sent_le {counts : Message → Bool} (process : Process) :
    announced counts process.sent ≤ announced counts process.prepared :=
  process.sent_prefix_prepared.sublist.countP_le

theorem le_foldr_max {n : Nat} {numbers : List Nat} (member : n ∈ numbers) : n ≤ numbers.foldr max 0 := by
  induction numbers with
  | nil => cases member
  | cons first rest ih =>
    rcases List.mem_cons.mp member with rfl | later
    · exact Nat.le_max_left _ _
    · exact (ih later).trans (Nat.le_max_right _ _)

/-- What one node contributes to the reach. -/
theorem le_reach [Fintype ι] (world : ι → Process) (i : ι) : max (world i).height
    (((world i).blocks.map fun block => block.index.toNat + 1).foldr max 0) ≤ reach world := by
  unfold reach
  exact Finset.le_sup (f := fun i => max (world i).height
    (((world i).blocks.map fun block => block.index.toNat + 1).foldr max 0)) (Finset.mem_univ i)

theorem height_le_reach [Fintype ι] (world : ι → Process) (i : ι) : (world i).height ≤ reach world :=
  (Nat.le_max_left _ _).trans (le_reach world i)

theorem index_lt_reach [Fintype ι] {world : ι → Process} {i : ι} {block : Block} (occurs : block ∈ (world i).blocks) :
    block.index.toNat < reach world :=
  ((le_foldr_max (List.mem_map_of_mem occurs)).trans (Nat.le_max_right _ _)).trans (le_reach world i)

variable [DecidableEq ι]

/-- A step of one node, seen from any node. -/
theorem update_holds {heard : Message → Prop} {rest : Snapshot → Prop}
    {dead : Option Node → Storage → List Send → List Event → Prop}
    (enduring : Process.Enduring ext (fun _ => True) heard rest dead) (i j : ι) (action : Action)
    (noBoot : action.boots = false) (hears : ∀ msg, action.Hears ext msg → heard msg)
    (holds : (world i).Holds rest dead) :
    (Function.update world j ((world j).step ext (config j) action) i).Holds rest dead := by
  by_cases same : i = j
  · subst same
    rw [Function.update_self]
    exact enduring.step_holds action (fun _ _ => trivial) noBoot hears holds
  · rw [Function.update_of_ne same]
    exact holds

section budgets
variable {counts : Message → Bool} {credit : List Block → (Hash → Bool) → Nat} {assured : List Block → Nat}

/-- Budgets are kept as long as no node is restarted. -/
theorem Spread.within (spread : Spread ext config Unrestarted start world) (budget : Budget counts credit assured)
    (i : ι) (spare debt : Nat)
    (enough : ∀ node ∈ (start i).memory?, Within counts credit spare debt node (start i).prepared) :
    ∀ node ∈ (world i).memory?, Within counts credit spare debt node (world i).prepared := by
  have view (process : Process) :
      process.Holds (fun now => Within counts credit spare debt now.node (now.sent ++ now.outbox))
        (fun held _ sent _ => ∀ node ∈ held, Within counts credit spare debt node sent) ↔
      ∀ node ∈ process.memory?, Within counts credit spare debt node process.prepared := by
    cases process with
    | up now => simp [Process.Holds,Process.memory?,Process.prepared]
    | down => rfl
  induction spread with
  | refl => exact enough
  | step _ j action allowed ih =>
    exact (view _).mp (update_holds (budget.enduring spare debt) i j action allowed
      (fun _ _ => trivial) ((view _).mpr ih))

end budgets

/-- A process that has run keeps a node in memory, alive or dead. -/
theorem step_memory (process : Process) (one : Config) (action : Action)
    (ran : process.memory?.isSome) : (process.step ext one action).memory?.isSome := by
  have finished : ∀ result : Except Interrupt (Option Send) × Exec, (Process.finish result).memory?.isSome := by
    rintro ⟨(_ | _) | _,exec⟩ <;> rfl
  have sections : ∀ (program : NodeM (Option Send)) (fates : List Fate),
      (process.runSection program fates).memory?.isSome := by
    intro program fates
    cases process with
    | up now => exact finished _
    | down => exact ran
  cases action with
  | submitTransaction tx => exact sections _ _
  | produceBlock clock orders fates => exact sections _ _
  | peerConnected peer => exact sections _ _
  | receive body fromPeer orders fates =>
    simp only [Process.step]
    split_ifs
    · exact ran
    · split
      · exact ran
      · exact sections _ _
  | kill => cases process <;> exact ran
  | broadcast position =>
    cases process with
    | up now => rfl
    | down => exact ran
  | boot fates =>
    cases process with
    | up now => rfl
    | down held disk sent log =>
      simp only [Process.step,Process.boot]
      split
      · exact ran
      · split
        · rfl
        · exact ran

theorem Spread.memory {possible : (ι → Process) → Action → Prop}
    (spread : Spread ext config possible start world) (ran : ∀ i, (start i).memory?.isSome) :
    ∀ i, (world i).memory?.isSome := by
  induction spread with
  | refl => exact ran
  | step _ j action _ ih =>
    intro i
    by_cases same : i = j
    · subst same
      rw [Function.update_self]
      exact step_memory _ _ _ (ih i)
    · rw [Function.update_of_ne same]
      exact ih i

/-- What a budget says of a node that was started once. -/
theorem Spread.announced_tx (spread : Spread ext config Unrestarted start world)
    (ran : ∀ i, (start i).memory?.isSome) (i : ι) (hash : Hash) :
    announced (Message.announcesTx hash) (world i).prepared + (start i).height ≤
      (world i).height + 1 + announced (Message.announcesTx hash) (start i).prepared := by
  obtain ⟨first,before⟩ := Option.isSome_iff_exists.mp (ran i)
  obtain ⟨last,after⟩ := Option.isSome_iff_exists.mp (spread.memory ran i)
  have within := spread.within (txBudget hash) i (start i).height
    (announced (Message.announcesTx hash) (start i).prepared) (fun node held => by
      rw [before,Option.mem_some_iff] at held
      subst held
      rw [Within,height_of_memory before,Node.credit]
      omega) last after
  have one : (last.mempool.contains hash).toNat ≤ 1 := Bool.toNat_le _
  rw [Within,Node.credit] at within
  rw [height_of_memory after]
  omega

theorem Spread.announced_block (spread : Spread ext config Unrestarted start world)
    (started : Started ext config start) (i : ι) (index : UInt64) :
    announced (Message.announcesBlock index) (world i).prepared ≤ 1 := by
  obtain ⟨last,after⟩ := Option.isSome_iff_exists.mp (spread.memory (fun j => (started.memory j).1) i)
  have within := spread.within (blockBudget index) i 0 0 (fun node _ => by
    rw [Within,(started.memory i).2]
    exact Nat.zero_le _) last after
  rw [Within,Node.credit] at within
  split_ifs at within <;> omega

/-- Whatever arrives, a block's index has 64 bits and what is announced can be read. -/
theorem Spread.readable (spread : Spread ext config Unrestarted start world) (started : Started ext config start)
    (i : ι) : Confined (2 ^ 64) (fun _ => True) (world i).memory? (world i).prepared := by
  rw [← confined_iff]
  induction spread with
  | refl =>
    rw [confined_iff,(started.memory i).2]
    refine ⟨fun node _ => le_of_lt node.blockchain.bounded,fun _ _ block _ => block.index.toNat_lt,?_,?_⟩
    · rintro send ⟨⟩
    · rintro send ⟨⟩
  | step _ j action allowed ih =>
    exact update_holds (Confined.enduring _ _) i j action allowed
      (fun _ _ => ⟨fun block _ => block.index.toNat_lt,fun _ _ => trivial⟩) ih

theorem Spread.bounded [Fintype ι] (spread : Spread ext config Unrestarted start world) (started : Started ext config start)
    (i : ι) : Confined (reach world) (· ∈ circulating world) (world i).memory? (world i).prepared where
  length := fun node held => by
    have bound := height_le_reach world i
    rwa [height_of_memory held] at bound
  chain := fun node held block member => by
    refine index_lt_reach (i := i) (List.mem_append_left _ ?_)
    rw [Option.mem_def.mp held]
    exact member
  messages := fun send member => by
    refine ⟨fun block carries => index_lt_reach (i := i) (List.mem_append_right _ ?_),fun tx found => ?_⟩
    · exact List.mem_flatMap.mpr ⟨send,member,Message.mem_blocks.mpr carries⟩
    · refine Finset.mem_biUnion.mpr ⟨i,Finset.mem_univ i,List.mem_toFinset.mpr ?_⟩
      exact List.mem_map_of_mem (List.mem_filterMap.mpr ⟨send,member,found⟩)
  readable := (spread.readable started i).readable

/-- Echoes bring nothing that was not there. -/
theorem Spread.echoes {later : ι → Process} (echoes : Spread ext config (Echo ext) world later) {height : Nat}
    {known : Hash → Prop} (confined : ∀ i, Confined height known (world i).memory? (world i).prepared) :
    ∀ i, Confined height known (later i).memory? (later i).prepared := by
  simp only [← confined_iff] at confined ⊢
  induction echoes with
  | refl => exact confined
  | @step world _ j action echo ih =>
    intro i
    have heard : action.boots = false ∧ ∀ msg, action.Hears ext msg → msg.Below height known := by
      cases action with
      | boot => exact echo.elim
      | submitTransaction => exact echo.elim
      | produceBlock => exact echo.elim
      | kill => exact ⟨rfl,fun _ hears => hears.elim⟩
      | peerConnected => exact ⟨rfl,fun _ hears => hears.elim⟩
      | broadcast => exact ⟨rfl,fun _ hears => hears.elim⟩
      | receive body fromPeer orders fates =>
        refine ⟨rfl,fun msg hears => ?_⟩
        obtain ⟨k,send,sent,rfl⟩ := echo msg hears
        have there := (confined_iff _).mp (ih k)
        exact (there.messages send ((world k).sent_prefix_prepared.subset sent)).arrived
    exact update_holds (Confined.enduring height known) i j action heard.1 heard.2 (ih i)

/-- A started node announces each height once and each transaction once for each height. -/
theorem Spread.announced_le (spread : Spread ext config Unrestarted start world)
    (started : Started ext config start) (i : ι) {height : Nat} {known : Finset Hash}
    (confined : Confined height (· ∈ known) (world i).memory? (world i).prepared) :
    announced Message.announces (world i).prepared ≤ height * (1 + known.card) := by
  have ran := fun j => (started.memory j).1
  obtain ⟨first,before⟩ := Option.isSome_iff_exists.mp (ran i)
  obtain ⟨last,after⟩ := Option.isSome_iff_exists.mp (spread.memory ran i)
  have blocks : ∑ k ∈ Finset.range height,
      announced (Message.announcesBlock (UInt64.ofNat k)) (world i).prepared ≤ height := by
    calc _ ≤ (Finset.range height).card • 1 :=
          Finset.sum_le_card_nsmul _ _ 1 fun k _ => spread.announced_block started i (UInt64.ofNat k)
      _ = height := by simp
  have transactions : ∑ hash ∈ known, announced (Message.announcesTx hash) (world i).prepared ≤
      known.card * height := by
    refine (Finset.sum_le_card_nsmul _ _ height fun hash _ => ?_).trans (by simp)
    have each := spread.announced_tx ran i hash
    have genesis : 1 ≤ (start i).height := by
      rw [height_of_memory before]
      exact List.length_pos_of_ne_nil first.blockchain.nonempty
    have top := confined.length last after
    rw [height_of_memory after,(started.memory i).2] at each
    change _ ≤ _ + 0 at each
    omega
  calc announced Message.announces (world i).prepared
      ≤ height + known.card * height := confined.announced_le.trans (Nat.add_le_add blocks transactions)
    _ = height * (1 + known.card) := by rw [Nat.mul_add,Nat.mul_one,Nat.mul_comm]

theorem Spread.unrestarted {later : ι → Process} (echoes : Spread ext config (Echo ext) world later)
    (spread : Spread ext config Unrestarted start world) : Spread ext config Unrestarted start later := by
  induction echoes with
  | refl => exact spread
  | step _ j action echo ih =>
    refine ih.step j action ?_
    cases action with
    | boot => exact echo.elim
    | _ => rfl

end network

/-- Without restarts, whatever is delivered, a node prepares one broadcast of a block of each index,
and one of a transaction, and one more for each block it takes; none more until it takes the next.
When nothing new is injected, what is sent stays within a bound that depends on where the nodes
stand. -/
theorem floods_end {ι : Type} [DecidableEq ι] [Fintype ι] (ext : Externals) (config : ι → Config)
    {start world : ι → Process} (started : Started ext config start)
    (spread : Spread ext config Unrestarted start world) :
    (∀ i, (world i).sent <+: (world i).prepared) ∧
    (∀ i index, announced (Message.announcesBlock index) (world i).prepared ≤ 1) ∧
    (∀ i hash, announced (Message.announcesTx hash) (world i).prepared ≤
      1 + ((world i).height - (start i).height)) ∧
    (∀ later, Spread ext config Unrestarted world later → ∀ i hash, (later i).height = (world i).height →
      announced (Message.announcesTx hash) (later i).prepared ≤
        announced (Message.announcesTx hash) (world i).prepared + 1) ∧
    ∀ later, Spread ext config (Echo ext) world later → ∀ peers : ι → Finset Nat,
      ∑ i, gossipCopies (peers i) (later i).sent ≤
        ∑ i, (peers i).card * (reach world * (1 + (circulating world).card)) := by
  have ran := fun j => (started.memory j).1
  refine ⟨fun i => (world i).sent_prefix_prepared,spread.announced_block started,fun i hash => ?_,?_,?_⟩
  · have bound := spread.announced_tx ran i hash
    rw [(started.memory i).2] at bound
    change _ ≤ _ + 0 at bound
    omega
  · intro later more i hash same
    have bound := more.announced_tx (spread.memory ran) i hash
    omega
  · intro later echoes peers
    refine Finset.sum_le_sum fun i _ => (gossipCopies_le _ _).trans (Nat.mul_le_mul_left _ ?_)
    exact (announced_sent_le _).trans ((echoes.unrestarted spread).announced_le started i
      (echoes.echoes (fun j => spread.bounded started j) i))

section runs
open Reference

def observing : Process := Process.run moreLibraries (config observerKeys funded false) [.boot []]

theorem observing_started : Started moreLibraries (fun _ : Fin 2 => config observerKeys funded false)
    fun _ => observing := by
  have runs : observing.node?.any (fun _ => true) = true := by decide +kernel
  obtain ⟨now,up,-⟩ := Process.up_of_node runs
  exact fun _ => ⟨Storage.empty,[],now,up,up⟩

/-- A payment is submitted to one of two nodes, which have one peer each: at most four messages
pass it on. -/
theorem floods_end_payment :
    let world := Function.update (fun _ : Fin 2 => observing) 0
      (observing.step moreLibraries (config observerKeys funded false) (.submitTransaction payment))
    announced (Message.announcesTx payment.hash) (world 0).prepared = 1 ∧
      ∀ later, Spread moreLibraries (fun _ => config observerKeys funded false) (Echo moreLibraries) world later →
        ∑ i, gossipCopies {0} (later i).sent ≤ 4 := by
  intro world
  have spread : Spread moreLibraries (fun _ => config observerKeys funded false) Unrestarted
      (fun _ : Fin 2 => observing) world := Spread.refl.step 0 (.submitTransaction payment) rfl
  obtain ⟨-,-,-,-,flood⟩ := floods_end moreLibraries _ observing_started spread
  have limit : ∑ _ : Fin 2, ({0} : Finset Nat).card * (reach world * (1 + (circulating world).card)) = 4 := by
    decide +kernel
  refine ⟨by decide +kernel,fun later echoes => ?_⟩
  rw [← limit]
  exact flood later echoes fun _ => {0}

/-- Two calls submit one payment, before and after a block that drives it out of the pool. Both
make their broadcast after the block, and before the next one. -/
theorem tx_broadcast_twice :
    let process := Process.run moreLibraries (config observerKeys funded false)
      [.boot [],.submitTransaction payment,.submitTransaction secondPayment,
        .submitTransaction thirdPayment,hand draining [],.submitTransaction cheaperPayment,
        .submitTransaction thirdPayment]
    let after := [Action.broadcast 2,.broadcast 4].foldl
      (Process.step moreLibraries (config observerKeys funded false)) process
    process.height = 2 ∧ after.height = 2 ∧
      announced (Message.announcesTx thirdPayment.hash) process.sent = 0 ∧
      announced (Message.announcesTx thirdPayment.hash) after.sent = 2 := by
  decide +kernel

end runs
end TitanCore
