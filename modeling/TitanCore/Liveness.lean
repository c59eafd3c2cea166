import Mathlib.Data.Fintype.Order
import TitanCore.FairTurns

/-! Once no node dies and no write fails any more, and messages arrive in the end, all chains keep
growing: a block that one node lacks is announced to it, or it asks for it. -/
namespace TitanCore

/-- A bound is passed in one step. -/
theorem exists_crossing {f : Nat → Nat} {s t bound : Nat} (earlier : s ≤ t) (below : f s ≤ bound)
    (above : bound < f t) : ∃ u, s ≤ u ∧ f u ≤ bound ∧ bound < f (u + 1) := by
  induction t, earlier using Nat.le_induction with
  | base => exact absurd above (Nat.not_lt.mpr below)
  | succ t later ih =>
    by_cases passed : bound < f t
    · exact ih passed
    · exact ⟨t,later,Nat.not_lt.mp passed,above⟩

/-- Replicas that never shrink and each get past whatever all have reached get as far as one
likes, all of them. -/
theorem grow_together {ι : Type} [Finite ι] {size : ι → Nat → Nat} (monotone : ∀ i, Monotone (size i))
    {bottom top : Nat} (start : ∀ i, bottom ≤ size i 0)
    (progress : ∀ n t, bottom ≤ n → n < top → (∀ i, n ≤ size i t) → ∀ i, ∃ later, n < size i later)
    {n : Nat} (inside : n ≤ top) : ∃ t, ∀ i, n ≤ size i t := by
  induction n with
  | zero => exact ⟨0,fun _ => Nat.zero_le _⟩
  | succ n ih =>
    by_cases low : n < bottom
    · exact ⟨0,fun i => Nat.le_trans low (start i)⟩
    obtain ⟨t,reached⟩ := ih (Nat.le_of_succ_le inside)
    choose time passed using progress n t (Nat.not_lt.mp low) inside reached
    obtain ⟨last,latest⟩ := Finite.exists_le time
    exact ⟨last,fun i => (passed i).trans_le (monotone i (latest i))⟩

section network
variable {ι : Type}

namespace Run
variable [DecidableEq ι] {ext : Externals} {config : ι → Config}

section history
variable (run : Run ext config)

theorem chain_step (i : ι) (t : Nat) : run.chain i t <+: run.chain i (t + 1) := by
  by_cases acting : i = run.actor t
  · subst acting
    exact Process.step_keeps (run.acts t)
  · rw [chain,chain,run.others t i acting]

theorem chain_later (i : ι) {s t : Nat} (earlier : s ≤ t) : run.chain i s <+: run.chain i t := by
  induction t, earlier using Nat.le_induction with
  | base => exact List.prefix_rfl
  | succ t _ ih => exact ih.trans (run.chain_step i t)

theorem length_monotone (i : ι) : Monotone fun t => (run.chain i t).length :=
  fun _ _ earlier => (run.chain_later i earlier).length_le

theorem Connected.later {number : ι → ι → Nat} {s t : Nat} {i j : ι} (connected : run.Connected number s i j)
    (earlier : s ≤ t) : run.Connected number t i j := by
  obtain ⟨u,before,greeted⟩ := connected
  exact ⟨u,before.trans earlier,greeted⟩

variable (parses : ext.ParseUndoesDump) (federation : Federation ext config)
include parses federation

theorem safe (t : Nat) : Safe ext config (run.world t) := (run.reachable t).safe parses federation

theorem sound (t : Nat) (i : ι) : Sound ext (config i) (run.now t i).node :=
  (run.safe parses federation t i).sound

theorem schedule (s t : Nat) (i j : ι) :
    (run.now t j).node.consensus = (run.now s i).node.consensus := by
  apply PoAConsensus.authorities_injective
  rw [(run.sound parses federation t j).configured.authorities,(run.sound parses federation s i).configured.authorities,
    federation.authorities]

/-- What one node held some time ago agrees with what another holds now. -/
theorem alike {s t : Nat} (earlier : s ≤ t) (free : CollisionFree ext (run.world t)) (i j : ι) :
    Alike (run.chain i s) (run.chain j t) := by
  have now : Alike (run.chain i t) (run.chain j t) := fun k x y at_i at_j =>
    (run.safe parses federation t).agree_at federation free rfl rfl at_i at_j
  exact now.of_prefix (run.chain_later i earlier)

/-- Nobody is brought a block of its own that it does not hold yet: it would have published that
block before. -/
theorem not_brought {n t : Nat} (later : 1 ≤ n) (free : CollisionFree ext (run.world (t + 1)))
    (below : (run.chain (run.actor t) t).length ≤ n) {block : Block}
    (at_n : (run.chain (run.actor t) (t + 1))[n]? = some block)
    (own : block.validator = signer ext config (run.actor t)) {msg : Message} (brings : (run.action t).Brings ext msg)
    (carries : msg.Carries block) : False := by
  let owner := run.actor t
  obtain ⟨genesis,created,grown⟩ := (run.sound parses federation (t + 1) owner).configured.grown
  have valid := grown.extends_at later at_n
  have index := grown.index_at created at_n
  have derived := ((verifyBlock_iff ext block).mp valid.verified).1
  have key := (run.possible t).apart msg brings block carries owner (derived.trans own)
  have authority : signer ext config owner ∈ (config owner).authorities := by
    rw [← own,valid.scheduled _ rfl,← (run.sound parses federation (t + 1) owner).configured.authorities]
    exact PoAConsensus.getProducer_mem _ _
  obtain ⟨send,said,first,carried,same⟩ := (run.possible t).unforged msg brings block carries valid.verified
    (by rw [index]; exact later) owner authority key
  -- the block that was published is on the chain already, so it has another index
  obtain ⟨durable,backed⟩ := (run.safe parses federation t).backed owner
  have held : first ∈ run.chain owner t := (backed.held _ rfl).subset (backed.sent send said first carried)
  obtain ⟨k,at_k⟩ := List.mem_iff_getElem?.mp held
  have inside : k < (run.chain owner t).length := (List.getElem?_eq_some_iff.mp at_k).1
  have at_k' : (run.chain owner (t + 1))[k]? = some first := by
    obtain ⟨more,whole⟩ := run.chain_step owner t
    rw [← whole,List.getElem?_append_left inside,at_k]
  have digests : ext.sha256 (headerPreimage ext first) = ext.sha256 (headerPreimage ext block) :=
    (grown.hash_at created at_k').trans (same.trans (grown.hash_at created at_n).symm)
  have occurs : ∀ {l other}, (run.chain owner (t + 1))[l]? = some other → Occurs (run.world (t + 1)) other :=
    fun at_l => .held (i := owner) rfl (List.mem_of_getElem? at_l)
  have headers := free first block (occurs at_k') (occurs at_n) digests
  have level := congrArg UInt64.toNat (headerPreimage_injective ext headers).1
  rw [grown.index_at created at_k',index] at level
  exact absurd level (Nat.ne_of_lt (inside.trans_le below))

/-- So a block of the node's own that is new on its chain was made in this step. -/
theorem foreign (i : ι) {t : Nat} (free : CollisionFree ext (run.world (t + 1)))
    (other : i = run.actor t → ∀ clock orders fates, run.action t ≠ .produceBlock clock orders fates) :
    ∃ more, run.chain i (t + 1) = run.chain i t ++ more ∧ ∀ block ∈ more, block.validator ≠ signer ext config i := by
  by_cases acting : i = run.actor t
  · subst acting
    obtain ⟨more,longer,brought⟩ := Process.step_brought (other rfl) (by rw [run.acts t]; rfl)
    refine ⟨more,longer,fun block new own => ?_⟩
    obtain ⟨msg,brings,carries⟩ := brought block new
    obtain ⟨k,at_k⟩ := List.mem_iff_getElem?.mp new
    have at_n : (run.chain (run.actor t) (t + 1))[(run.chain (run.actor t) t).length + k]? = some block := by
      rw [chain,longer,chain,List.getElem?_append_right (Nat.le_add_right _ _),Nat.add_sub_cancel_left,at_k]
    have positive : 1 ≤ (run.chain (run.actor t) t).length + k :=
      Nat.le_add_right_of_le (List.length_pos_iff.mpr (run.now t (run.actor t)).node.blockchain.nonempty)
    exact run.not_brought parses federation positive free (Nat.le_add_right _ _) at_n own brings carries
  · exact ⟨[],by rw [chain,run.others t i acting,List.append_nil]; rfl,List.forall_mem_nil _⟩

/-- And the owner of a turn gets past it only by producing the block itself. -/
theorem crossing {owner : ι} {n t : Nat} (later : 1 ≤ n) (free : CollisionFree ext (run.world (t + 1)))
    (turn : (run.now t owner).node.consensus.getProducer (UInt64.ofNat n) = signer ext config owner)
    (keys : (config owner).nodeKeys.WellFormed ext)
    (below : (run.chain owner t).length ≤ n) (above : n < (run.chain owner (t + 1)).length) :
    ∃ block, Blockchain.Extends ext (some (run.now t owner).node.consensus) (run.chain owner t) block ∧
      (run.chain owner t).length = n ∧ run.chain owner (t + 1) = run.chain owner t ++ [block] ∧
      ⟨.others none,.newBlock,block.toJson⟩ ∈ (run.now (t + 1) owner).outbox := by
  by_cases other : owner = run.actor t → ∀ clock orders fates, run.action t ≠ .produceBlock clock orders fates
  · exfalso
    obtain ⟨more,longer,others⟩ := run.foreign parses federation owner free other
    obtain ⟨block,at_n⟩ : ∃ block, (run.chain owner (t + 1))[n]? = some block := ⟨_,List.getElem?_eq_getElem above⟩
    have new : block ∈ more := by
      have found := at_n
      rw [longer,List.getElem?_append_right below] at found
      exact List.mem_of_getElem? found
    obtain ⟨genesis,created,grown⟩ := (run.sound parses federation (t + 1) owner).configured.grown
    have index : block.index = UInt64.ofNat n := by rw [← grown.index_at created at_n,UInt64.ofNat_toNat]
    refine others block new ?_
    rw [(grown.extends_at later at_n).scheduled _ rfl,index,run.schedule parses federation t (t + 1) owner owner]
    exact turn
  push Not at other
  obtain ⟨acting,clock,orders,fates,producing⟩ := other
  subst acting
  have sound := run.sound parses federation t (run.actor t)
  have stepped := run.acts t
  have calm := run.undisturbed t
  rw [producing] at stepped calm
  have room : (run.chain (run.actor t) t).length + 1 < 2 ^ 64 :=
    (Nat.succ_le_of_lt (below.trans_lt above)).trans_lt (run.now (t + 1) (run.actor t)).node.blockchain.bounded
  rcases Process.step_produceBlock sound keys room calm stepped with ⟨-,block,valid,longer,waits⟩ | ⟨-,same⟩
  · rw [sound.configured.consensus] at valid
    refine ⟨block,valid,?_,longer,waits⟩
    have height : (run.chain (run.actor t) (t + 1)).length = (run.chain (run.actor t) t).length + 1 := by
      rw [chain,longer,List.length_append]
      rfl
    omega
  · rw [chain,same] at above
    exact absurd above (Nat.not_lt.mpr below)

end history

section fairness
variable {run : Run ext config} {number : ι → ι → Nat}

theorem handed_of_sent {t : Nat} {i : ι} (acting : run.actor t = i) {sends : List Send}
    (said : (run.now (t + 1) i).sent = (run.now t i).sent ++ sends) : run.handed t = sends := by
  rw [handed,acting,said,List.drop_left]

/-- A request for the blocks from one's own height on is answered: if the other node is beyond `n`
when it answers, so is the one that asked in the end. -/
theorem Fair.answered (fair : run.Fair number) (parses : ext.ParseUndoesDump) (federation : Federation ext config)
    (free : ∀ t, CollisionFree ext (run.world t)) (fits : ∀ t i, ∀ send ∈ (run.now t i).sent, Fits ext send.message)
    {s : Nat} {i j : ι} (other : j ≠ i) (acting : run.actor s = i) (connected : run.Connected number s i j)
    (asked : run.now (s + 1) i = (run.now s i).send (.peer (number i j))
      ⟨.getBlocks,fromPayload (run.now s i).node.blockchain.getHeight⟩) :
    ∃ t > s, run.Connected number t j i ∧
      ∀ n, n < (run.chain j t).length → ∃ later, n < (run.chain i later).length := by
  let start := (run.now s i).node.blockchain.getHeight
  have height : start.toNat = (run.chain i s).length := Blockchain.getHeight_toNat _
  have request : run.handed s = [⟨.peer (number i j),⟨.getBlocks,fromPayload start⟩⟩] :=
    handed_of_sent acting (by rw [asked]; rfl)
  obtain ⟨t,after,replying,known,orders,fates,received⟩ := fair.delivering s j (by rw [acting]; exact other)
    (by rw [acting]; exact connected) _ (by rw [request]; exact List.mem_singleton_self _) (by rw [acting]; rfl)
    (Ordinary.fits ext (.getBlocks start))
  rw [acting] at known received
  refine ⟨t,after,known,fun n beyond => ?_⟩
  by_cases past : (run.chain j t).length < start.toNat
  · exact ⟨s,by omega⟩
  have replied : run.now (t + 1) j = (run.now t j).send (.peer (number j i))
      ⟨.blocks,blocksPayload (((run.chain j t).drop start.toNat).map Block.toJson)⟩ := by
    have stepped := run.acts t
    rw [replying,received,Process.step_getBlocks (config j) parses,Process.up.injEq] at stepped
    exact stepped.symm
  have reply : run.handed t = [⟨.peer (number j i),
      ⟨.blocks,blocksPayload (((run.chain j t).drop start.toNat).map Block.toJson)⟩⟩] :=
    handed_of_sent replying (by rw [replied]; rfl)
  have short := fits (t + 1) j _ (by rw [replied]; exact List.mem_append_right _ (List.mem_singleton_self _))
  obtain ⟨u,later,syncing,-,orders',fates',arrived⟩ := fair.delivering t i (by rw [replying]; exact other.symm)
    (by rw [replying]; exact known) _ (by rw [reply]; exact List.mem_singleton_self _) (by rw [replying]; rfl) short
  rw [replying] at arrived
  refine ⟨u + 1,beyond.trans_le ?_⟩
  have stepped := run.acts u
  have calm := run.undisturbed u
  rw [syncing,arrived] at stepped
  rw [arrived] at calm
  obtain ⟨genesis,-,grown⟩ := (run.sound parses federation t j).configured.grown
  have asked : 0 < start.toNat := by
    rw [height]
    exact List.length_pos_iff.mpr (run.now s i).node.blockchain.nonempty
  refine Process.step_blocks parses asked (Nat.not_lt.mp past) grown short ⟨?_,?_,?_⟩ calm stepped
  · rw [(run.sound parses federation u i).configured.consensus,run.schedule parses federation t u j i]
  · exact run.alike parses federation later.le (free u) j i
  · rw [height]
    exact run.length_monotone i (after.le.trans later.le)

/-- When all nodes have got `n` blocks, each gets another one in the end. -/
theorem Fair.overtakes (fair : run.Fair number) (parses : ext.ParseUndoesDump) (federation : Federation ext config)
    (keys : ∀ i, (config i).nodeKeys.WellFormed ext) (free : ∀ t, CollisionFree ext (run.world t))
    (fits : ∀ t i, ∀ send ∈ (run.now t i).sent, Fits ext send.message) {n t : Nat} (later : 1 ≤ n)
    (room : n + 1 < 2 ^ 64) (reached : ∀ i, n ≤ (run.chain i t).length) (i : ι) :
    ∃ t', n < (run.chain i t').length := by
  -- the node whose turn it is
  let producer := (run.now 0 i).node.consensus.getProducer (UInt64.ofNat n)
  obtain ⟨owner,signs,-⟩ := federation.owned i producer (by
    rw [← (run.sound parses federation 0 i).configured.authorities]
    exact PoAConsensus.getProducer_mem _ _)
  have turn (s : Nat) : (run.now s owner).node.consensus.getProducer (UInt64.ofNat n) = signer ext config owner := by
    rw [run.schedule parses federation 0 s i owner]
    exact signs.symm
  have produced : ∃ s, n < (run.chain owner s).length := by
    obtain ⟨s,after,acting,clock,orders,fates,producing⟩ := fair.producing t owner
    have stepped := run.acts s
    have calm := run.undisturbed s
    rw [acting,producing] at stepped
    rw [producing] at calm
    have enough : n ≤ (run.chain owner s).length := (reached owner).trans (run.length_monotone owner after)
    rcases enough.lt_or_eq with beyond | level
    · exact ⟨s,beyond⟩
    have sound := run.sound parses federation s owner
    have height : (run.now s owner).node.blockchain.getHeight = UInt64.ofNat n := by
      apply UInt64.toNat.inj
      rw [Blockchain.getHeight_toNat,UInt64.toNat_ofNat',Nat.mod_eq_of_lt (by omega)]
      exact level.symm
    rcases Process.step_produceBlock sound (keys owner) (by rw [← chain,← level]; exact room) calm stepped with
      ⟨-,block,-,longer,-⟩ | ⟨other,-⟩
    · refine ⟨s + 1,?_⟩
      rw [chain,longer,List.length_append,List.length_singleton]
      exact Nat.lt_succ_of_le enough
    · rw [height,turn s,sound.configured.nodeAddr] at other
      exact absurd rfl other
  by_cases same : i = owner
  · exact same ▸ produced
  -- what the owner holds when it gets the request of a new peer comes with the answer
  obtain ⟨c,acting,greeting⟩ := fair.connecting i owner same
  have asked : run.now (c + 1) i = (run.now c i).send (.peer (number i owner))
      ⟨.getBlocks,fromPayload (run.now c i).node.blockchain.getHeight⟩ := by
    have stepped := run.acts c
    rw [acting,greeting,Process.step_peerConnected,Process.up.injEq] at stepped
    exact stepped.symm
  obtain ⟨g,-,known,answers⟩ := fair.answered parses federation free fits (Ne.symm same) acting
    ⟨c,Nat.le_refl c,acting,greeting⟩ asked
  by_cases first : n < (run.chain owner g).length
  · exact answers n first
  -- what it produces afterwards is announced
  obtain ⟨s,beyond⟩ := produced
  have ordered : g ≤ s := by
    by_contra before
    exact first (beyond.trans_le (run.length_monotone owner (Nat.le_of_not_le before)))
  obtain ⟨u,afterwards,below,above⟩ : ∃ u ≥ g, (run.chain owner u).length ≤ n ∧ n < (run.chain owner (u + 1)).length :=
    exists_crossing ordered (Nat.not_lt.mp first) beyond
  obtain ⟨block,valid,level,longer,waits⟩ := run.crossing parses federation later (free (u + 1)) (turn u) (keys owner)
    below above
  obtain ⟨b,prepared,announcing,position,broadcast,found⟩ := fair.broadcasting (u + 1) owner _ waits
  have said : (run.now (b + 1) owner).sent = (run.now b owner).sent ++ [⟨.others none,.newBlock,block.toJson⟩] := by
    have stepped := run.acts b
    simp only [announcing,broadcast,Process.step,Process.broadcast,Snapshot.broadcast,found,Process.up.injEq] at stepped
    rw [← stepped]
  have short := fits (b + 1) owner _ (by rw [said]; exact List.mem_append_right _ (List.mem_singleton_self _))
  obtain ⟨d,arriving,hearing,familiar,orders,fates,heard⟩ := fair.delivering b i (by rw [announcing]; exact same)
    (by rw [announcing]; exact known.later run (by omega)) _
    (by rw [handed_of_sent announcing said]; exact List.mem_singleton_self _)
    (by rw [announcing]; exact Option.some_ne_none _) short
  rw [announcing] at familiar heard
  have stepped := run.acts d
  have calm := run.undisturbed d
  rw [hearing,heard] at stepped
  rw [heard] at calm
  have schedule : (run.now d i).node.blockchain.consensus = some (run.now u owner).node.consensus := by
    rw [(run.sound parses federation d i).configured.consensus,run.schedule parses federation u d owner i]
  rcases Process.step_newBlock parses valid short schedule
    (run.alike parses federation (by omega) (free d) owner i) calm stepped with taken | ⟨-,requested⟩
  · exact ⟨d + 1,level ▸ taken⟩
  · obtain ⟨a,after,-,answers⟩ := fair.answered parses federation free fits (Ne.symm same) hearing familiar requested
    exact answers n (above.trans_le (run.length_monotone owner (by omega)))

/-- However the nodes got where they are: from when they all stay up, all writes succeed and
messages arrive, the chains of all nodes grow beyond any height, and agree up to it, whatever else
is brought to them, unless headers collide or a message exceeds the limit. -/
theorem Fair.grows [Finite ι] (fair : run.Fair number) (parses : ext.ParseUndoesDump)
    (federation : Federation ext config) (keys : ∀ i, (config i).nodeKeys.WellFormed ext) {n : Nat}
    (inside : n < 2 ^ 64) :
    ∃ t, run.Spoiled t ∨ ∀ i, n ≤ (run.chain i t).length ∧
      ∀ j, ((run.chain i t).take n).map Block.hash = ((run.chain j t).take n).map Block.hash := by
  by_contra never
  push Not at never
  have free (t : Nat) : CollisionFree ext (run.world t) := by
    by_contra collision
    exact (never t).1 (.inl collision)
  have fits (t : Nat) (i : ι) (send : Send) (said : send ∈ (run.now t i).sent) : Fits ext send.message := by
    by_contra long
    exact (never t).1 (.inr ⟨i,send,said,long⟩)
  obtain ⟨t,reached⟩ := grow_together run.length_monotone
    (fun i => List.length_pos_iff.mpr (run.now 0 i).node.blockchain.nonempty)
    (fun m t low high reached => fair.overtakes parses federation keys free fits low
      ((Nat.succ_le_of_lt high).trans_lt inside) reached) (Nat.le_refl n)
  obtain ⟨i,short⟩ := (never t).2
  obtain ⟨j,differ⟩ := short (reached i)
  refine differ (List.ext_getElem (by simp [Nat.min_eq_left (reached _)]) fun k inside_i inside_j => ?_)
  simp only [List.getElem_map,List.getElem_take]
  exact run.alike parses federation (Nat.le_refl t) (free t) i j k _ _ (List.getElem?_eq_getElem _)
    (List.getElem?_eq_getElem _)

end fairness
end Run
end network

open Reference in
/-- Two authorities that make blocks in turns get to a thousand, and no two headers collide. -/
theorem Run.Fair.grows_duo : ∃ run : Run libraries duo, run.Fair (fun _ _ => 0) ∧ (∀ t, ¬ run.Spoiled t) ∧
    ∃ t, ∀ i, 1000 ≤ (run.chain i t).length ∧
      ∀ j, ((run.chain i t).take 1000).map Block.hash = ((run.chain j t).take 1000).map Block.hash := by
  obtain ⟨first,kept,level,-⟩ := duo_opened
  obtain ⟨run,-,fair,always⟩ := exists_fair libraries_parse duo_federation duo_distinct duo_keys kept level arrival
    fun _ _ => digest_separates
  obtain ⟨t,spoiled | reached⟩ := fair.grows libraries_parse duo_federation duo_keys (n := 1000) (by decide)
  · exact absurd spoiled (always t).1
  · exact ⟨run,fair,fun t => (always t).1,t,reached⟩

end TitanCore
