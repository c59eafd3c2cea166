import TitanCore.Network
import TitanCore.RoundRobin

/-! What the nodes cannot take back, and what they cannot do without: a block that was handed out is
at its index on every chain from then on, and no chain gets a round ahead of an authority. -/
namespace TitanCore

theorem PoAConsensus.getProducer_turn (consensus : PoAConsensus) (blockIndex : UInt64) :
    consensus.getProducer blockIndex = RoundRobin.turn consensus.nonempty blockIndex.toNat := rfl

section network
variable {ι : Type} {ext : Externals} {config : ι → Config} {world : ι → Process}

/-- Who has handed out something has a chain. -/
theorem Safe.memory_of_sent (safe : Safe ext config world) {i : ι} {send : Send} (said : send ∈ (world i).sent) :
    ∃ node, (world i).memory? = some node := by
  have holds := safe i
  cases state : world i with
  | up now => exact ⟨now.node,rfl⟩
  | down held disk sent log =>
    rw [state] at holds said
    cases holds with
    | unborn => cases said
    | dead => exact ⟨_,rfl⟩

theorem Safe.handed_at (safe : Safe ext config world) {i : ι} {send : Send} (said : send ∈ (world i).sent)
    {block : Block} (carries : send.message.Carries block) :
    ∃ node, (world i).memory? = some node ∧ node.blockchain.chain[block.index.toNat]? = some block := by
  obtain ⟨node,memory⟩ := safe.memory_of_sent said
  obtain ⟨durable,backed⟩ := safe.backed i
  have member := (backed.held node memory).subset (backed.sent send said block carries)
  obtain ⟨genesis,created,grown⟩ := (safe.memory memory).1.grown
  obtain ⟨k,at_k⟩ := List.mem_iff_getElem?.mp member
  refine ⟨node,memory,?_⟩
  rw [grown.index_at created at_k]
  exact at_k

/-- A block that a node handed out, or took from another. -/
inductive Witnessed (ext : Externals) (config : ι → Config) (world : ι → Process) (block : Block) : Prop
  | handed {i : ι} {send : Send} (said : send ∈ (world i).sent) (carries : send.message.Carries block)
  | accepted {i : ι} {node : Node} (memory : (world i).memory? = some node) (member : block ∈ node.blockchain.chain)
      (foreign : signer ext config i ≠ block.validator)

/-- A block above the first that a node took was handed out by its authority, under the same hash and
index. -/
theorem Safe.published (federation : Federation ext config) (safe : Safe ext config world)
    (free : CollisionFree ext world) {i owner : ι} {node : Node} (memory : (world i).memory? = some node) {k : Nat}
    (positive : 1 ≤ k) {block : Block} (at_k : node.blockchain.chain[k]? = some block)
    (signs : signer ext config owner = block.validator) (other : i ≠ owner) :
    ∃ send ∈ (world owner).sent, ∃ own, send.message.Carries own ∧ own.hash = block.hash ∧
      own.index = block.index ∧ own.validator = block.validator := by
  obtain ⟨scheduled,index,hash,vouched⟩ := safe.vouched memory positive at_k
  have configured := (safe.memory memory).1
  have authority : block.validator ∈ (config i).authorities := by
    rw [scheduled,← configured.authorities]
    exact node.consensus.getProducer_mem _
  obtain ⟨only,signs',unique⟩ := federation.owned i _ authority
  obtain rfl := unique owner signs
  rcases vouched owner signs unique with same | ⟨send,said,own,carries,same⟩
  · exact absurd same other
  obtain ⟨theirs,memory',at_own⟩ := safe.handed_at said carries
  obtain ⟨genesis,created,grown⟩ := (safe.memory memory').1.grown
  have headers := free own block (.sent said carries) (.held memory (List.mem_of_getElem? at_k))
    ((grown.hash_at created at_own).trans (same.trans hash.symm))
  have equal := headerPreimage_injective ext headers
  exact ⟨send,said,own,carries,same,equal.1,equal.2.2.2.1⟩

variable [DecidableEq ι] {later : ι → Process}

inductive Onward (ext : Externals) (config : ι → Config) (world : ι → Process) : (ι → Process) → Prop
  | refl : Onward ext config world world
  | step {later : ι → Process} (onward : Onward ext config world later) (i : ι) (action : Action)
      (possible : Possible ext config later i action) :
      Onward ext config world (Function.update later i ((later i).step ext (config i) action))

theorem Onward.reachable (onward : Onward ext config world later) (reachable : Reachable ext config world) :
    Reachable ext config later := by
  induction onward with
  | refl => exact reachable
  | step _ i action possible ih => exact .step ih i action possible

theorem Onward.sent (onward : Onward ext config world later) {i : ι} {send : Send} (said : send ∈ (world i).sent) :
    send ∈ (later i).sent := by
  induction onward with
  | refl => exact said
  | step _ j action _ ih =>
    by_cases same : i = j
    · subst same
      rw [Function.update_self]
      exact Process.step_sent ext (config i) _ action ih
    · rwa [Function.update_of_ne same]

/-- What was handed out, or taken from another node, is final: at any later time, whatever crashed
and was started again in between, no node holds another block at its index. -/
theorem witnessed_final (parses : ext.ParseUndoesDump) (federation : Federation ext config)
    (reachable : Reachable ext config world) (before : CollisionFree ext world)
    (onward : Onward ext config world later) (free : CollisionFree ext later) {block : Block}
    (witnessed : Witnessed ext config world block) {i : ι} {node : Node} (memory : (later i).memory? = some node)
    {other : Block} (at_index : node.blockchain.chain[block.index.toNat]? = some other) :
    other.hash = block.hash := by
  have safe := reachable.safe parses federation
  have safe' := (onward.reachable reachable).safe parses federation
  have handed {j : ι} {send : Send} {own : Block} (said : send ∈ (world j).sent) (carries : send.message.Carries own)
      (same : own.index = block.index) : other.hash = own.hash := by
    obtain ⟨theirs,memory',at_own⟩ := safe'.handed_at (onward.sent said) carries
    rw [same] at at_own
    exact safe'.agree_at federation free memory memory' at_index at_own
  cases witnessed with
  | handed said carries => exact handed said carries rfl
  | @accepted j held memory' member foreign =>
    obtain ⟨genesis,created,grown⟩ := (safe.memory memory').1.grown
    obtain ⟨k,at_k⟩ := List.mem_iff_getElem?.mp member
    have index := grown.index_at created at_k
    by_cases first : k = 0
    · -- all chains begin with one genesis block
      obtain ⟨genesis',created',grown'⟩ := (safe'.memory memory).1.grown
      rw [index,first,grown'.first_at,Option.some.injEq] at at_index
      rw [first,grown.first_at,Option.some.injEq] at at_k
      rw [federation.genesisKey i j,created,Except.ok.injEq] at created'
      rw [← at_index,← at_k,created']
    · have positive := Nat.one_le_iff_ne_zero.mpr first
      have scheduled := (grown.extends_at positive at_k).scheduled _ rfl
      obtain ⟨owner,signs,-⟩ := federation.owned j block.validator (by
        rw [scheduled,← (safe.memory memory').1.authorities]
        exact PoAConsensus.getProducer_mem _ _)
      have apart : j ≠ owner := by
        rintro rfl
        exact foreign signs
      obtain ⟨send,said,own,carries,same,level,-⟩ := safe.published federation before memory' positive at_k signs apart
      exact (handed said carries level).trans same

/-- No chain but its own gets more than a round beyond the last block of its own that an authority
handed out. -/
theorem chain_waits (parses : ext.ParseUndoesDump) (federation : Federation ext config)
    (reachable : Reachable ext config world) (free : CollisionFree ext world) {i owner : ι} (other : i ≠ owner)
    (authority : signer ext config owner ∈ (config i).authorities) {node : Node}
    (memory : (world i).memory? = some node) {last : Nat}
    (silent : ∀ send ∈ (world owner).sent, ∀ block, send.message.Carries block →
      block.validator = signer ext config owner → block.index.toNat ≤ last) :
    node.blockchain.chain.length ≤ last + (config i).authorities.length := by
  by_contra long
  have safe := reachable.safe parses federation
  have configured := (safe.memory memory).1
  rw [← configured.authorities] at authority long
  obtain ⟨k,beyond,soon,turn⟩ := RoundRobin.exists_turn node.consensus.nonempty authority last
  obtain ⟨block,at_k⟩ : ∃ block, node.blockchain.chain[k]? = some block :=
    ⟨_,List.getElem?_eq_getElem (by omega)⟩
  have positive : 1 ≤ k := by omega
  obtain ⟨scheduled,index,-,-⟩ := safe.vouched memory positive at_k
  have signs : signer ext config owner = block.validator := by
    rw [scheduled,PoAConsensus.getProducer_turn,index,turn]
  obtain ⟨send,said,own,carries,-,level,validator⟩ := safe.published federation free memory positive at_k signs other
  have bound := silent send said own carries (validator.trans signs.symm)
  rw [level,index] at bound
  omega

end network

section rotation
variable {ext : Externals} {config : Config} {node : Node}

/-- Any stretch of the chain above the first block is made by the authorities in turn. -/
theorem Sound.producers (sound : Sound ext config node) {start count : Nat} (positive : 1 ≤ start)
    (inside : start + count ≤ node.blockchain.chain.length) :
    ((node.blockchain.chain.drop start).take count).map Block.validator =
      (List.range' start count).map (RoundRobin.turn node.consensus.nonempty) := by
  obtain ⟨genesis,created,grown⟩ := sound.configured.grown
  refine List.ext_getElem (by simp; omega) fun k inner _ => ?_
  have bound : start + k < node.blockchain.chain.length := by
    simp only [List.length_map,List.length_take,List.length_drop] at inner
    omega
  have at_k := List.getElem?_eq_getElem bound
  rw [List.getElem_map,List.getElem_map,List.getElem_take,List.getElem_drop,List.getElem_range',Nat.one_mul,
    (grown.extends_at (positive.trans (Nat.le_add_right _ _)) at_k).scheduled _ rfl,PoAConsensus.getProducer_turn,
    grown.index_at created at_k]

/-- The authorities of any reachable node take turns: a round of its chain is the list of authorities,
from whoever is next, and of any stretch each has made its share, rounded down or up. -/
theorem production_fair (ext : Externals) (config : Config) (actions : List Action) (node : Node)
    (reached : (Process.run ext config actions).node? = some node) (start count : Nat) (positive : 1 ≤ start)
    (inside : start + count ≤ node.blockchain.chain.length) :
    let producers := ((node.blockchain.chain.drop start).take count).map Block.validator
    (count = config.authorities.length → producers = config.authorities.rotate start) ∧
    (config.authorities.Nodup → ∀ authority ∈ config.authorities,
      count / config.authorities.length ≤ producers.count authority ∧
      producers.count authority ≤ count / config.authorities.length + 1) := by
  have sound : Sound ext config node := by
    obtain ⟨_,-,rfl,sound⟩ := (run_sound ext config actions).node reached
    exact sound
  intro producers
  rw [show producers = _ from sound.producers positive inside,← sound.configured.authorities]
  refine ⟨fun whole => ?_,fun distinct authority there => ?_⟩
  · rw [whole]
    exact RoundRobin.round node.consensus.nonempty start
  · exact RoundRobin.count_turns node.consensus.nonempty distinct there start count

end rotation

def Reference.alternating : Config :=
  { config observerKeys ∅ false with authorities := [observerAddress,validatorAddress] }

open Reference in
/-- It takes the validator's block and makes the next one. -/
theorem production_fair_two : ∃ node, (Process.run libraries alternating
      ([.boot []] ++ [deliver first []] ++ [.produceBlock 1 arrival []])).node? = some node ∧
    ((node.blockchain.chain.drop 1).take 2).map Block.validator = [validatorAddress,observerAddress] ∧
    1 ≤ (((node.blockchain.chain.drop 1).take 2).map Block.validator).count validatorAddress := by
  have ran : (Process.run libraries alternating ([.boot []] ++ [deliver first []] ++
      [.produceBlock 1 arrival []])).node?.any (fun node => node.blockchain.chain.length = 3) = true := by
    rw [Process.run_concat,run_deliver first_fits]
    decide +kernel
  obtain ⟨node,reached,facts⟩ := (Option.any_eq_true _ _).mp ran
  have height : node.blockchain.chain.length = 3 := of_decide_eq_true facts
  have fair := production_fair libraries alternating _ node reached 1 2 (by decide) (by rw [height])
  have apart : alternating.authorities.Nodup := by decide +kernel
  have member : validatorAddress ∈ alternating.authorities := by decide +kernel
  exact ⟨node,reached,fair.1 rfl,(fair.2 apart validatorAddress member).1⟩

namespace Reference

/-- Where the chains hold nothing but the first two blocks, no two headers collide. -/
theorem pair_free {world : Bool → Process} (reachable : Reachable libraries pair world)
    (known : ∀ i, (world i).memory?.all (fun node => node.blockchain.chain ⊆ [genesis,first]) = true) :
    CollisionFree libraries world := by
  have safe := reachable.safe libraries_parse pair_federation
  have held {i : Bool} {node : Node} {block : Block} (memory : (world i).memory? = some node)
      (member : block ∈ node.blockchain.chain) : block = genesis ∨ block = first := by
    have contained := (Option.all_eq_true _ _).mp (known i) node memory
    simpa using of_decide_eq_true contained member
  have occurring {block : Block} (occurs : Occurs world block) : block = genesis ∨ block = first := by
    cases occurs with
    | held memory member => exact held memory member
    | sent said carries =>
      obtain ⟨node,memory,at_index⟩ := safe.handed_at said carries
      exact held memory (List.mem_of_getElem? at_index)
  have apart : libraries.sha256 (headerPreimage libraries genesis) ≠
      libraries.sha256 (headerPreimage libraries first) := by decide +kernel
  intro a b occursA occursB same
  rcases occurring occursA with rfl | rfl <;> rcases occurring occursB with rfl | rfl
  · rfl
  · exact absurd same apart
  · exact absurd same.symm apart
  · rfl

theorem pairWorld_concat (validator observer : List Action) (action : Action) :
    pairWorld (validator ++ [action]) observer = Function.update (pairWorld validator observer) true
      ((pairWorld validator observer true).step libraries (pair true) action) := by
  funext i
  cases i with
  | true => rw [Function.update_self,pairWorld,pairWorld,Process.run_concat]
  | false => rfl

theorem pair_booted : Reachable libraries pair (pairWorld [.boot []] [.boot []]) := by
  have nothing : Reachable libraries pair (pairWorld [] []) := by
    have start : pairWorld [] [] = fun _ => Process.initial := by
      funext i
      cases i <;> rfl
    rw [start]
    exact .start
  have booted : Reachable libraries pair (pairWorld [.boot []] []) :=
    pair_validator nothing (possible_local (List.forall_mem_nil _) fun _ => id)
  exact pair_observer booted (possible_local (List.forall_mem_nil _) fun _ => id)

theorem pair_announcing : Reachable libraries pair (pairWorld announcing [.boot []]) := by
  have produced : Reachable libraries pair (pairWorld ([.boot []] ++ [.produceBlock 1 arrival []]) [.boot []]) :=
    pair_validator pair_booted (possible_local (List.forall_mem_nil _) fun _ => id)
  exact pair_validator produced (possible_local (List.forall_mem_nil _) fun _ => id)

/-- The validator dies and is started again. -/
theorem pair_restarting : Onward libraries pair (pairWorld announcing [.boot []])
    (pairWorld (announcing ++ [.kill] ++ [.boot []]) [.boot []]) := by
  rw [pairWorld_concat,pairWorld_concat]
  exact .step (.step .refl true .kill (possible_local (List.forall_mem_nil _) fun _ => id)) true (.boot [])
    (possible_local (List.forall_mem_nil _) fun _ => id)

end Reference

open Reference in
/-- The validator has announced one block and the observer holds it: it is at the bound. -/
theorem chain_waits_announced : ∃ node,
    (pairWorld announcing ([.boot []] ++ [deliver first []]) false).memory? = some node ∧
    node.blockchain.chain = [genesis,first] ∧
    Published (pairWorld announcing ([.boot []] ++ [deliver first []])) true first.hash ∧
    node.blockchain.chain.length ≤ 1 + 1 := by
  let world := pairWorld announcing ([.boot []] ++ [deliver first []])
  have made : (world true).memory?.all (fun node => node.blockchain.chain = [genesis,first]) = true := by
    decide +kernel
  have took : (world false).memory?.any (fun node => node.blockchain.chain = [genesis,first]) = true := by
    have ran : world false = Process.run libraries (pair false) ([.boot []] ++ [deliver first []]) := rfl
    rw [ran,run_deliver first_fits]
    decide +kernel
  obtain ⟨node,memory,facts⟩ := (Option.any_eq_true _ _).mp took
  have chain : node.blockchain.chain = [genesis,first] := of_decide_eq_true facts
  have free : CollisionFree libraries world := by
    refine pair_free pair_reachable fun i => (Option.all_eq_true _ _).mpr fun held memory' => decide_eq_true ?_
    cases i with
    | true => rw [of_decide_eq_true ((Option.all_eq_true _ _).mp made held memory')]; exact List.Subset.refl _
    | false =>
      obtain rfl := Option.some.inj (memory.symm.trans memory')
      rw [chain]
      exact List.Subset.refl _
  have signs : signer libraries pair true ∈ (pair false).authorities := by decide +kernel
  have other : false ≠ true := by decide
  refine ⟨node,memory,chain,announcing_published _,
    chain_waits libraries_parse pair_federation pair_reachable free other signs memory ?_⟩
  -- what the validator handed out is on its chain
  intro send said block carries _
  obtain ⟨held,memory',at_index⟩ := (pair_reachable.safe libraries_parse pair_federation).handed_at said carries
  rw [of_decide_eq_true ((Option.all_eq_true _ _).mp made held memory')] at at_index
  exact Nat.le_of_lt_succ (List.getElem?_eq_some_iff.mp at_index).1

open Reference in
/-- The block that the validator announced is on its chain after it died and was started again. -/
theorem witnessed_final_restarted : ∃ node block,
    (pairWorld (announcing ++ [.kill] ++ [.boot []]) [.boot []] true).memory? = some node ∧
    node.blockchain.chain[1]? = some block ∧ block.hash = first.hash := by
  let later := pairWorld (announcing ++ [.kill] ++ [.boot []]) [.boot []]
  have ran : (later true).memory?.any (fun node => node.blockchain.chain.length = 2) = true := by decide +kernel
  obtain ⟨node,memory,two⟩ := (Option.any_eq_true _ _).mp ran
  have inside : 1 < node.blockchain.chain.length := by
    rw [of_decide_eq_true two]
    decide
  have said : ((pairWorld announcing [.boot []] true).sent.any fun send => announced send = some first) = true := by
    decide +kernel
  obtain ⟨send,member,found⟩ := List.any_eq_true.mp said
  have witnessed : Witnessed libraries pair (pairWorld announcing [.boot []]) first :=
    .handed member (carries_of_announced (of_decide_eq_true found))
  have before : CollisionFree libraries (pairWorld announcing [.boot []]) :=
    pair_free pair_announcing (by decide +kernel)
  have free : CollisionFree libraries later :=
    pair_free (pair_restarting.reachable pair_announcing) (by decide +kernel)
  have at_one := List.getElem?_eq_getElem inside
  exact ⟨node,_,memory,at_one,witnessed_final libraries_parse pair_federation pair_announcing before pair_restarting free
    witnessed memory at_one⟩

end TitanCore
