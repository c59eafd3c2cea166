import TitanCore.NodeFrames
import TitanCore.NodePersistence

/-! Any number of nodes, each on its own disk, and an adversary who delivers what it likes. An
authority signs one block of an index that others get to see, so no two nodes hold different
blocks at one index. -/
namespace TitanCore

/-- Lists that agree wherever both have an element. -/
theorem prefix_or_prefix_of_agree {α : Type} {a b : List α}
    (agree : ∀ (k : Nat) (x y : α), a[k]? = some x → b[k]? = some y → x = y) : a <+: b ∨ b <+: a := by
  induction a generalizing b with
  | nil => exact .inl List.nil_prefix
  | cons x a ih =>
    cases b with
    | nil => exact .inr List.nil_prefix
    | cons y b =>
      obtain rfl := agree 0 x y rfl rfl
      rw [List.prefix_cons_inj,List.prefix_cons_inj]
      exact ih fun k x y at_a at_b => agree (k + 1) x y at_a at_b

section chains
variable {ext : Externals} {consensus : Option PoAConsensus} {genesis : Block} {chain : List Block}

theorem Grown.extends_at (grown : Grown ext consensus genesis chain) {k : Nat} (later : 1 ≤ k) {block : Block}
    (at_k : chain[k]? = some block) : Blockchain.Extends ext consensus (chain.take k) block := by
  obtain ⟨inside,rfl⟩ := List.getElem?_eq_some_iff.mp at_k
  apply grown.extends_of_prefix
  · intro empty
    rw [List.take_eq_nil_iff] at empty
    rcases empty with zero | none_there
    · omega
    · exact grown.nonempty none_there
  · rw [List.take_append_getElem]
    exact List.take_prefix _ _

theorem Grown.first_at (grown : Grown ext consensus genesis chain) : chain[0]? = some genesis := by
  obtain ⟨rest,rfl⟩ := grown.head
  rfl

variable {keys : KeyPair}

theorem Grown.index_at (grown : Grown ext consensus genesis chain)
    (created : createGenesisBlock ext keys = .ok genesis) {k : Nat} {block : Block}
    (at_k : chain[k]? = some block) : block.index.toNat = k := by
  obtain ⟨inside,-⟩ := List.getElem?_eq_some_iff.mp at_k
  by_cases first : k = 0
  · subst first
    rw [grown.first_at,Option.some.injEq] at at_k
    rw [← at_k,createGenesisBlock_index created]
    rfl
  · rw [(grown.extends_at (Nat.one_le_iff_ne_zero.mpr first) at_k).index,List.length_take]
    omega

theorem Grown.hash_at (grown : Grown ext consensus genesis chain)
    (created : createGenesisBlock ext keys = .ok genesis) {k : Nat} {block : Block}
    (at_k : chain[k]? = some block) : computeBlockHash ext block = block.hash := by
  by_cases first : k = 0
  · subst first
    rw [grown.first_at,Option.some.injEq] at at_k
    obtain ⟨_,_,rfl⟩ := signBlock_ok ext created
    rw [← at_k]
    rfl
  · have valid := grown.extends_at (Nat.one_le_iff_ne_zero.mpr first) at_k
    exact ((verifyBlock_iff ext block).mp valid.verified).2.1

end chains

/-- The node a process has in memory; of a dead process, the one it had when it died. -/
def Process.memory? : Process → Option Node
  | .up now => some now.node
  | .down held _ _ _ => held

theorem sent_lasting (ext : Externals) (config : Config) (send : Send) :
    Process.Lasting ext config (fun _ => True) (fun _ => True) (fun _ => True)
      (fun now => send ∈ now.sent) fun _ _ sent _ => send ∈ sent where
  stable := {
    interrupt := fun _ _ said => said
    admission := fun _ _ said => said
    blame := fun _ _ said => said
    reply := fun _ _ _ said _ _ => List.mem_append_left _ said
    ordinary := fun _ _ => trivial
    produce := fun _ _ _ _ _ _ => ⟨trivial,trivial⟩
    accept := fun orders block _ => by
      refine ⟨_,_,_,_,_,.frame (fun now later sent _ said => ?_) fun reason now said => ?_⟩
      · rw [sent]
        exact said
      · cases reason <;> exact said }
  boot := fun _ _ sent log node said _ => by
    refine Spec.consequence (Spec.halts (recoverFromStorage_quiet ext node sent log)
      fun _ now same => ?_) (fun _ h => h) fun _ now quiet => ?_
    · rw [same]
      exact said
    · rw [quiet.1]
      exact said
  kill := fun _ said => said
  queue := fun _ _ said _ _ => said
  broadcast := fun _ _ _ said _ => List.mem_append_left _ said

theorem Process.step_sent (ext : Externals) (config : Config) (process : Process) (action : Action)
    {send : Send} (said : send ∈ process.sent) : send ∈ (process.step ext config action).sent := by
  have holds (process : Process) : process.Holds (fun now => send ∈ now.sent)
      (fun _ _ sent _ => send ∈ sent) ↔ send ∈ process.sent := by
    cases process <;> rfl
  exact (holds _).mp ((sent_lasting ext config send).step_holds action (fun _ _ => trivial)
    (fun _ _ _ _ => trivial) (fun _ _ _ _ _ _ => trivial) ((holds process).mpr said))

section network
variable {ι : Type} (ext : Externals) (config : ι → Config)

def signer (i : ι) : Address := deriveAddress ext (config i).nodeKeys.publicKey

/-- Nodes with one genesis key and one list of authorities, each with a disk, and each authority
one of them. -/
structure Federation : Prop where
  genesisKey : ∀ i j, (config i).genesisValidatorKeys = (config j).genesisValidatorKeys
  authorities : ∀ i j, (config i).authorities = (config j).authorities
  persistent : ∀ i, (config i).persistent = true
  owned : ∀ i, ∀ authority ∈ (config i).authorities, ∃! owner, signer ext config owner = authority

def Published (world : ι → Process) (owner : ι) (hash : Hash) : Prop :=
  ∃ send ∈ (world owner).sent, ∃ block, send.message.Carries block ∧ block.hash = hash

/-- What an adversary can make a node do: anything, but no write fails, the blocks it delivers
are not signed with an authority's key unless the authority published them, and no key has an
authority's address but the authority's own. -/
structure Possible (world : ι → Process) (i : ι) (action : Action) : Prop where
  calm : ∀ fate ∈ action.fates, Calm fate
  unforged : ∀ msg, action.Brings ext msg → ∀ block, msg.Carries block →
    verifyBlock ext block = true → 1 ≤ block.index.toNat →
    ∀ owner, signer ext config owner ∈ (config i).authorities →
    block.validatorPublicKey = (config owner).nodeKeys.publicKey → Published world owner block.hash
  apart : ∀ msg, action.Brings ext msg → ∀ block, msg.Carries block →
    ∀ owner, deriveAddress ext block.validatorPublicKey = signer ext config owner →
    block.validatorPublicKey = (config owner).nodeKeys.publicKey

/-- The global states, from nodes that never ran: one node makes a step at a time. -/
inductive Reachable [DecidableEq ι] : (ι → Process) → Prop
  | start : Reachable fun _ => Process.initial
  | step {world : ι → Process} (reached : Reachable world) (i : ι) (action : Action)
      (possible : Possible ext config world i action) :
      Reachable (Function.update world i ((world i).step ext (config i) action))

inductive Occurs (world : ι → Process) (block : Block) : Prop
  | held {i : ι} {node : Node} (memory : (world i).memory? = some node)
      (member : block ∈ node.blockchain.chain)
  | sent {i : ι} {send : Send} (said : send ∈ (world i).sent) (carries : send.message.Carries block)

def CollisionFree (world : ι → Process) : Prop :=
  ∀ a b, Occurs world a → Occurs world b →
    ext.sha256 (headerPreimage ext a) = ext.sha256 (headerPreimage ext b) →
    headerPreimage ext a = headerPreimage ext b

/-- A block that can be accepted as an authority's is the node's own or was published. -/
def Known (world : ι → Process) (i : ι) (block : Block) : Prop :=
  verifyBlock ext block = true → 1 ≤ block.index.toNat → block.validator ∈ (config i).authorities →
    signer ext config i = block.validator ∨
    ∃ owner, signer ext config owner = block.validator ∧ Published world owner block.hash

/-- Every node is on its disk but perhaps for its last block, and knows its blocks. -/
def Safe (world : ι → Process) : Prop :=
  ∀ i, (world i).Holds (Persisted ext (config i) [] (Known ext config world i))
    (Remains ext (config i) [] (Known ext config world i))

variable {ext config} {world : ι → Process}

theorem Published.step [DecidableEq ι] {owner : ι} {hash : Hash} (published : Published world owner hash)
    (i : ι) (action : Action) :
    Published (Function.update world i ((world i).step ext (config i) action)) owner hash := by
  obtain ⟨send,said,carried⟩ := published
  refine ⟨send,?_,carried⟩
  by_cases same : owner = i
  · subst same
    rw [Function.update_self]
    exact Process.step_sent ext (config owner) _ action said
  · rwa [Function.update_of_ne same]

theorem Known.step [DecidableEq ι] {j : ι} {block : Block} (known : Known ext config world j block)
    (i : ι) (action : Action) :
    Known ext config (Function.update world i ((world i).step ext (config i) action)) j block := by
  intro verified later authority
  rcases known verified later authority with own | ⟨owner,signs,published⟩
  · exact .inl own
  · exact .inr ⟨owner,signs,published.step i action⟩

theorem Persisted.weaken {one : Config} {base : List Block} {offered offered' : Block → Prop}
    {now : Snapshot} (persisted : Persisted ext one base offered now)
    (more : ∀ block, offered block → offered' block) : Persisted ext one base offered' now :=
  { persisted with offered := fun block member => more block (persisted.offered block member) }

theorem Remains.weaken {one : Config} {base : List Block} {offered offered' : Block → Prop}
    {held : Option Node} {disk : Storage} {sent : List Send} {log : List Event}
    (remains : Remains ext one base offered held disk sent log)
    (more : ∀ block, offered block → offered' block) : Remains ext one base offered' held disk sent log := by
  cases remains with
  | unborn first faithful unsaved => exact .unborn first faithful unsaved
  | dead configured durable image before short offers =>
    exact .dead configured durable image before short fun block member => more block (offers block member)

theorem Safe.start : Safe ext config fun _ => Process.initial := fun _ =>
  .unborn rfl (fun _ _ _ _ member => by cases member) fun _ member => by cases member

theorem Possible.known {i : ι} {action : Action} (federation : Federation ext config)
    (possible : Possible ext config world i action) {msg : Message} (brings : action.Brings ext msg)
    {block : Block} (carries : msg.Carries block) : Known ext config world i block := by
  intro verified later authority
  obtain ⟨owner,signs,-⟩ := federation.owned i _ authority
  have derived := ((verifyBlock_iff ext block).mp verified).1
  have key := possible.apart msg brings block carries owner (derived.trans signs.symm)
  refine .inr ⟨owner,signs,possible.unforged msg brings block carries verified later owner ?_ key⟩
  rw [signs]
  exact authority

theorem Safe.step [DecidableEq ι] (parses : ext.ParseUndoesDump) (federation : Federation ext config)
    (safe : Safe ext config world) {i : ι} {action : Action}
    (possible : Possible ext config world i action) :
    Safe ext config (Function.update world i ((world i).step ext (config i) action)) := by
  intro j
  have more : ∀ block, Known ext config world j block → Known ext config
      (Function.update world i ((world i).step ext (config i) action)) j block :=
    fun _ known => known.step i action
  have stepped : (Function.update world i ((world i).step ext (config i) action) j).Holds
      (Persisted ext (config j) [] (Known ext config world j))
      (Remains ext (config j) [] (Known ext config world j)) := by
    by_cases same : j = i
    · subst same
      rw [Function.update_self]
      refine (Persisted.lasting parses (federation.persistent j) ?_).step_holds action possible.calm
        (fun msg brings block carries => possible.known federation brings carries)
        (fun _ _ _ _ _ _ => trivial) (safe j)
      -- the node signs what it produces under its own address
      intro now previous transactions clock block persisted made _ _ _
      obtain ⟨_,_,rfl⟩ := signBlock_ok ext made
      left
      change signer ext config j = deriveAddress ext now.node.nodeKeys.publicKey
      rw [persisted.sound.configured.nodeKeys]
      rfl
    · rw [Function.update_of_ne same]
      exact safe j
  cases result : Function.update world i ((world i).step ext (config i) action) j with
  | up now =>
    rw [result] at stepped
    exact Persisted.weaken stepped more
  | down held disk sent log =>
    rw [result] at stepped
    exact Remains.weaken stepped more

theorem Reachable.safe [DecidableEq ι] (parses : ext.ParseUndoesDump) (federation : Federation ext config)
    (reachable : Reachable ext config world) : Safe ext config world := by
  induction reachable with
  | start => exact .start
  | step _ i action possible ih => exact ih.step parses federation possible

theorem Safe.memory (safe : Safe ext config world) {i : ι} {node : Node}
    (memory : (world i).memory? = some node) : Configured ext (config i) node ∧
      ∀ block ∈ node.blockchain.chain.tail, Known ext config world i block := by
  have holds := safe i
  cases state : world i with
  | up now =>
    rw [state] at holds memory
    obtain rfl := Option.some.inj memory
    exact ⟨holds.sound.configured,holds.offered⟩
  | down held disk sent log =>
    rw [state] at holds memory
    obtain rfl : held = some node := memory
    cases holds with
    | dead configured _ _ _ _ offers => exact ⟨configured,offers⟩

/-- The chain on a node's disk, which holds all the node ever published. -/
structure Backed (ext : Externals) (config : ι → Config) (world : ι → Process) (owner : ι)
    (durable : List Block) : Prop where
  grown : durable ≠ [] → ∃ consensus genesis,
    createGenesisBlock ext (config owner).genesisValidatorKeys = .ok genesis ∧
    Grown ext consensus genesis durable
  held : ∀ node, (world owner).memory? = some node → durable <+: node.blockchain.chain
  sent : ∀ send ∈ (world owner).sent, ∀ block, send.message.Carries block → block ∈ durable

theorem Image.backed {owner : ι} {base durable : List Block} {disk : Storage} {sent : List Send}
    {log : List Event} (image : Image ext (config owner) base disk sent log durable)
    (same : (world owner).sent = sent)
    (held : ∀ node, (world owner).memory? = some node → durable <+: node.blockchain.chain) :
    Backed ext config world owner durable := by
  refine ⟨fun _ => ?_,held,by rw [same]; exact image.sent⟩
  obtain ⟨consensus,genesis,-,created,grown⟩ := image.onDisk.grown
  exact ⟨some consensus,genesis,created,grown⟩

theorem Safe.backed (safe : Safe ext config world) (owner : ι) :
    ∃ durable, Backed ext config world owner durable := by
  have holds := safe owner
  cases state : world owner with
  | up now =>
    rw [state] at holds
    obtain ⟨disk,-,image⟩ := holds.image
    refine ⟨_,image.backed (by rw [state]; rfl) fun node memory => ?_⟩
    rw [state] at memory
    obtain rfl := Option.some.inj memory
    exact List.prefix_rfl
  | down held disk sent log =>
    rw [state] at holds
    cases holds with
    | unborn _ _ _ =>
      refine ⟨[],fun none_there => absurd rfl none_there,fun _ _ => List.nil_prefix,?_⟩
      rw [state]
      exact List.forall_mem_nil _
    | dead configured durable image before _ _ =>
      refine ⟨durable,image.backed (by rw [state]; rfl) fun node memory => ?_⟩
      rw [state] at memory
      obtain rfl := Option.some.inj memory
      exact before

theorem Backed.at_index {owner : ι} {durable : List Block} (backed : Backed ext config world owner durable)
    (free : CollisionFree ext world) {block : Block} (occurs : Occurs world block)
    (hash : computeBlockHash ext block = block.hash) (published : Published world owner block.hash) :
    ∃ own, durable[block.index.toNat]? = some own ∧ own.hash = block.hash := by
  obtain ⟨send,said,own,carries,same⟩ := published
  have member := backed.sent send said own carries
  obtain ⟨consensus,genesis,created,grown⟩ := backed.grown (List.ne_nil_of_mem member)
  obtain ⟨k,at_k⟩ := List.mem_iff_getElem?.mp member
  have digests : ext.sha256 (headerPreimage ext own) = ext.sha256 (headerPreimage ext block) :=
    (grown.hash_at created at_k).trans (same.trans hash.symm)
  have headers := free own block (.sent said carries) occurs digests
  have index := (headerPreimage_injective ext headers).1
  refine ⟨own,?_,same⟩
  rw [← index,grown.index_at created at_k]
  exact at_k

theorem Backed.at_own {owner : ι} {durable : List Block} (backed : Backed ext config world owner durable)
    {node : Node} (memory : (world owner).memory? = some node) {k : Nat} {block own : Block}
    (at_k : node.blockchain.chain[k]? = some block) (own_at : durable[k]? = some own) : own = block := by
  obtain ⟨newer,whole⟩ := backed.held node memory
  rw [← whole,List.getElem?_append_left (List.getElem?_eq_some_iff.mp own_at).1,own_at] at at_k
  exact Option.some.inj at_k

/-- A block above the first is its authority's: made by the node itself, or published. -/
theorem Safe.vouched (safe : Safe ext config world) {i : ι} {node : Node}
    (memory : (world i).memory? = some node) {k : Nat} (later : 1 ≤ k) {block : Block}
    (at_k : node.blockchain.chain[k]? = some block) :
    block.validator = node.consensus.getProducer block.index ∧ block.index.toNat = k ∧
    computeBlockHash ext block = block.hash ∧
    ∀ owner, signer ext config owner = block.validator →
      (∀ other, signer ext config other = block.validator → other = owner) →
      i = owner ∨ Published world owner block.hash := by
  obtain ⟨configured,known⟩ := safe.memory memory
  obtain ⟨genesis,created,grown⟩ := configured.grown
  have valid := grown.extends_at later at_k
  have index := grown.index_at created at_k
  have scheduled := valid.scheduled _ rfl
  have authority : block.validator ∈ (config i).authorities := by
    rw [scheduled,← configured.authorities]
    exact node.consensus.getProducer_mem _
  have above : block ∈ node.blockchain.chain.tail := by
    obtain ⟨rest,whole⟩ := grown.head
    obtain ⟨before,rfl⟩ := Nat.exists_eq_add_of_le' later
    rw [← whole] at at_k ⊢
    exact List.mem_of_getElem? at_k
  refine ⟨scheduled,index,grown.hash_at created at_k,fun owner _ unique => ?_⟩
  have positive : 1 ≤ block.index.toNat := by
    rw [index]
    exact later
  rcases known block above valid.verified positive authority with own | ⟨other,signs,published⟩
  · exact .inl (unique i own)
  · rw [← unique other signs]
    exact .inr published

theorem Safe.agree_at (federation : Federation ext config) (safe : Safe ext config world)
    (free : CollisionFree ext world) {i j : ι} {a b : Node} (memoryA : (world i).memory? = some a)
    (memoryB : (world j).memory? = some b) {k : Nat} {x y : Block}
    (at_a : a.blockchain.chain[k]? = some x) (at_b : b.blockchain.chain[k]? = some y) :
    x.hash = y.hash := by
  obtain ⟨configuredA,-⟩ := safe.memory memoryA
  obtain ⟨configuredB,-⟩ := safe.memory memoryB
  obtain ⟨genesisA,createdA,grownA⟩ := configuredA.grown
  obtain ⟨genesisB,createdB,grownB⟩ := configuredB.grown
  by_cases first : k = 0
  · subst first
    rw [grownA.first_at,Option.some.injEq] at at_a
    rw [grownB.first_at,Option.some.injEq] at at_b
    rw [federation.genesisKey j i,createdA,Except.ok.injEq] at createdB
    rw [← at_a,← at_b,createdB]
  have later := Nat.one_le_iff_ne_zero.mpr first
  obtain ⟨scheduledA,indexA,hashA,vouchedA⟩ := safe.vouched memoryA later at_a
  obtain ⟨scheduledB,indexB,hashB,vouchedB⟩ := safe.vouched memoryB later at_b
  have occursA : Occurs world x := .held memoryA (List.mem_of_getElem? at_a)
  have occursB : Occurs world y := .held memoryB (List.mem_of_getElem? at_b)
  -- both blocks are of the authority whose turn the index is
  have authorities : b.consensus.authorities = a.consensus.authorities := by
    rw [configuredA.authorities,configuredB.authorities,federation.authorities]
  have turn : y.validator = x.validator := by
    rw [scheduledA,scheduledB,PoAConsensus.authorities_injective authorities,
      UInt64.toNat.inj (indexB.trans indexA.symm)]
  have authority : x.validator ∈ (config i).authorities := by
    rw [scheduledA,← configuredA.authorities]
    exact a.consensus.getProducer_mem _
  obtain ⟨owner,signs,unique⟩ := federation.owned i _ authority
  obtain ⟨durable,backed⟩ := safe.backed owner
  have publicA (published : Published world owner x.hash) :
      ∃ own, durable[k]? = some own ∧ own.hash = x.hash := by
    rw [← indexA]
    exact backed.at_index free occursA hashA published
  have publicB (published : Published world owner y.hash) :
      ∃ own, durable[k]? = some own ∧ own.hash = y.hash := by
    rw [← indexB]
    exact backed.at_index free occursB hashB published
  rcases vouchedA owner signs unique with rfl | publishedA
  · rcases vouchedB i (signs.trans turn.symm) (by rw [turn]; exact unique) with rfl | publishedB
    · -- one node
      obtain rfl := Option.some.inj (memoryA.symm.trans memoryB)
      rw [Option.some.inj (at_a.symm.trans at_b)]
    · obtain ⟨own,own_at,same⟩ := publicB publishedB
      rw [← backed.at_own memoryA at_a own_at,same]
  · obtain ⟨own,own_at,same⟩ := publicA publishedA
    rcases vouchedB owner (signs.trans turn.symm) (by rw [turn]; exact unique) with rfl | publishedB
    · rw [← backed.at_own memoryB at_b own_at,same]
    · -- the authority published one block of the index
      obtain ⟨own',own_at',same'⟩ := publicB publishedB
      rw [← same,← same',Option.some.inj (own_at.symm.trans own_at')]

/-- No two nodes ever hold different blocks at one index: of any two chains one begins with the
other, hash by hash. -/
theorem chains_comparable [DecidableEq ι] (parses : ext.ParseUndoesDump) (federation : Federation ext config)
    (reachable : Reachable ext config world) (free : CollisionFree ext world) {i j : ι} {a b : Node}
    (memoryA : (world i).memory? = some a) (memoryB : (world j).memory? = some b) :
    a.blockchain.chain.map Block.hash <+: b.blockchain.chain.map Block.hash ∨
    b.blockchain.chain.map Block.hash <+: a.blockchain.chain.map Block.hash := by
  have safe := reachable.safe parses federation
  refine prefix_or_prefix_of_agree fun k x y at_a at_b => ?_
  rw [List.getElem?_map,Option.map_eq_some_iff] at at_a at_b
  obtain ⟨blockA,at_a,rfl⟩ := at_a
  obtain ⟨blockB,at_b,rfl⟩ := at_b
  exact safe.agree_at federation free memoryA memoryB at_a at_b

end network
namespace Reference

def pair (validator : Bool) : Config := config (if validator then validatorKeys else observerKeys) funded true

theorem pair_federation : Federation libraries pair := by
  have validator : signer libraries pair true = validatorAddress := by decide +kernel
  have observer : signer libraries pair false ≠ validatorAddress := by decide +kernel
  refine ⟨fun _ _ => rfl,fun _ _ => rfl,fun _ => rfl,fun _ authority member => ?_⟩
  obtain rfl := List.mem_singleton.mp member
  refine ⟨true,validator,fun other same => ?_⟩
  cases other with
  | true => rfl
  | false => exact absurd same observer

def pairWorld (validator observer : List Action) : Bool → Process
  | true => Process.run libraries (pair true) validator
  | false => Process.run libraries (pair false) observer

theorem pair_validator {validator observer : List Action} {action : Action}
    (reached : Reachable libraries pair (pairWorld validator observer))
    (possible : Possible libraries pair (pairWorld validator observer) true action) :
    Reachable libraries pair (pairWorld (validator ++ [action]) observer) := by
  have stepped : pairWorld (validator ++ [action]) observer =
      Function.update (pairWorld validator observer) true
        ((pairWorld validator observer true).step libraries (pair true) action) := by
    funext i
    cases i with
    | true => rw [Function.update_self,pairWorld,pairWorld,Process.run_concat]
    | false => rfl
  rw [stepped]
  exact .step reached true action possible

theorem pair_observer {validator observer : List Action} {action : Action}
    (reached : Reachable libraries pair (pairWorld validator observer))
    (possible : Possible libraries pair (pairWorld validator observer) false action) :
    Reachable libraries pair (pairWorld validator (observer ++ [action])) := by
  have stepped : pairWorld validator (observer ++ [action]) =
      Function.update (pairWorld validator observer) false
        ((pairWorld validator observer false).step libraries (pair false) action) := by
    funext i
    cases i with
    | true => rfl
    | false => rw [Function.update_self,pairWorld,pairWorld,Process.run_concat]
  rw [stepped]
  exact .step reached false action possible

theorem possible_local {world : Bool → Process} {i : Bool} {action : Action}
    (calm : ∀ fate ∈ action.fates, Calm fate) (brings_none : ∀ msg, ¬ action.Brings libraries msg) :
    Possible libraries pair world i action :=
  ⟨calm,fun msg brings => (brings_none msg brings).elim,fun msg brings => (brings_none msg brings).elim⟩

def announced (send : Send) : Option Block :=
  match send.message with
  | ⟨.newBlock,payload⟩ => (blockFromJson payload).toOption
  | _ => none

theorem carries_of_announced {send : Send} {block : Block} (found : announced send = some block) :
    send.message.Carries block := by
  unfold announced at found
  split at found
  · next payload message =>
    rw [message]
    cases decoded : blockFromJson payload with
    | error e =>
      rw [decoded] at found
      cases found
    | ok other =>
      rw [decoded] at found
      obtain rfl := Option.some.inj found
      exact .newBlock decoded
  · cases found

def announcing : List Action := [.boot []] ++ [.produceBlock 1 arrival []] ++ [.broadcast 0]

theorem announcing_published (observer : List Action) :
    Published (pairWorld announcing observer) true first.hash := by
  have said : ((Process.run libraries (pair true) announcing).sent.any fun send =>
      announced send = some first) = true := by decide +kernel
  obtain ⟨send,member,found⟩ := List.any_eq_true.mp said
  exact ⟨send,member,first,carries_of_announced (of_decide_eq_true found),rfl⟩

theorem possible_first :
    Possible libraries pair (pairWorld announcing [.boot []]) false (deliver first []) := by
  have only : ∀ msg, (deliver first []).Brings libraries msg →
      ∀ block, msg.Carries block → block = first := by
    intro msg brings block carries
    have decoded := brings.2
    rw [deserializeMessage_body libraries libraries_parse _ first.canonical_toJson,Except.ok.injEq] at decoded
    obtain rfl : msg = ⟨.newBlock,first.toJson⟩ := decoded.symm
    generalize payload : first.toJson = encoded at carries
    cases carries with
    | newBlock decoded =>
      rw [← payload,blockFromJson_toJson] at decoded
      exact (Except.ok.inj decoded).symm
  refine ⟨List.forall_mem_nil _,fun msg brings block carries _ _ owner _ key => ?_,
    fun msg brings block carries owner same => ?_⟩
  · obtain rfl := only msg brings block carries
    cases owner with
    | true => exact announcing_published _
    | false => exact absurd key (by decide)
  · obtain rfl := only msg brings block carries
    cases owner with
    | true => rfl
    | false => exact absurd same (by decide +kernel)

theorem pair_reachable : Reachable libraries pair (pairWorld announcing ([.boot []] ++ [deliver first []])) := by
  have nothing : Reachable libraries pair (pairWorld [] []) := by
    have start : pairWorld [] [] = fun _ => Process.initial := by
      funext i
      cases i <;> rfl
    rw [start]
    exact .start
  have booted : Reachable libraries pair (pairWorld [.boot []] []) :=
    pair_validator nothing (possible_local (List.forall_mem_nil _) fun _ => id)
  have produced : Reachable libraries pair (pairWorld ([.boot []] ++ [.produceBlock 1 arrival []]) []) :=
    pair_validator booted (possible_local (List.forall_mem_nil _) fun _ => id)
  have sent : Reachable libraries pair (pairWorld announcing []) :=
    pair_validator produced (possible_local (List.forall_mem_nil _) fun _ => id)
  have observing : Reachable libraries pair (pairWorld announcing [.boot []]) :=
    pair_observer sent (possible_local (List.forall_mem_nil _) fun _ => id)
  exact pair_observer observing possible_first

end Reference

open Reference in
/-- The validator produces and announces a block, the observer accepts it. -/
theorem chains_comparable_pair : ∃ (world : Bool → Process) (a b : Node), Reachable libraries pair world ∧
    (world true).memory? = some a ∧ (world false).memory? = some b ∧
    a.blockchain.chain = [genesis,first] ∧ b.blockchain.chain = [genesis,first] ∧
    (a.blockchain.chain.map Block.hash <+: b.blockchain.chain.map Block.hash ∨
      b.blockchain.chain.map Block.hash <+: a.blockchain.chain.map Block.hash) := by
  let world := pairWorld announcing ([.boot []] ++ [deliver first []])
  have ranA : (world true).memory?.any (fun node => node.blockchain.chain = [genesis,first]) = true := by
    decide +kernel
  have ranB : (world false).memory?.any (fun node => node.blockchain.chain = [genesis,first]) = true := by
    have ran : world false = Process.run libraries (pair false) ([.boot []] ++ [deliver first []]) := rfl
    rw [ran,run_deliver first_fits]
    decide +kernel
  obtain ⟨a,memoryA,factsA⟩ := (Option.any_eq_true _ _).mp ranA
  obtain ⟨b,memoryB,factsB⟩ := (Option.any_eq_true _ _).mp ranB
  have chainA := of_decide_eq_true factsA
  have chainB := of_decide_eq_true factsB
  have safe := pair_reachable.safe libraries_parse pair_federation
  -- what was published is on the chains
  have known : ∀ block, Occurs world block → block = genesis ∨ block = first := by
    intro block occurs
    have member : block ∈ [genesis,first] := by
      cases occurs with
      | @held i node memory member =>
        cases i with
        | true =>
          obtain rfl := Option.some.inj (memory.symm.trans memoryA)
          rwa [chainA] at member
        | false =>
          obtain rfl := Option.some.inj (memory.symm.trans memoryB)
          rwa [chainB] at member
      | @sent i send said carries =>
        obtain ⟨durable,backed⟩ := safe.backed i
        have member := backed.sent send said block carries
        cases i with
        | true =>
          rw [← chainA]
          exact (backed.held a memoryA).subset member
        | false =>
          rw [← chainB]
          exact (backed.held b memoryB).subset member
    simpa using member
  have apart : libraries.sha256 (headerPreimage libraries genesis) ≠
      libraries.sha256 (headerPreimage libraries first) := by decide +kernel
  have free : CollisionFree libraries world := by
    intro x y occursX occursY same
    rcases known x occursX with rfl | rfl
    · rcases known y occursY with rfl | rfl
      · rfl
      · exact absurd same apart
    · rcases known y occursY with rfl | rfl
      · exact absurd same.symm apart
      · rfl
  exact ⟨world,a,b,pair_reachable,memoryA,memoryB,chainA,chainB,
    chains_comparable libraries_parse pair_federation pair_reachable free memoryA memoryB⟩

end TitanCore
