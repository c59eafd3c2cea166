import Mathlib.Data.List.Nodup
import TitanCore.Blockchain
import TitanCore.Reference

/-! What every chain built by `addBlock` satisfies, whatever blocks are offered, and its
agreement with the separate re-check of `validateChain`. -/
namespace TitanCore.Blockchain

/-- The conditions `validateChain` re-checks. -/
structure Valid (ext : Externals) (chain : List Block) : Prop where
  nonempty : chain ≠ []
  index : ∀ (i : Nat) (block : Block), chain[i]? = some block → block.index.toNat = i
  origin : ∀ block : Block, chain[0]? = some block → block.previousHash = zeroHash
  linked : ∀ (i : Nat) (previous block : Block), chain[i]? = some previous → chain[i + 1]? = some block →
    block.previousHash = previous.hash
  verified : ∀ block ∈ chain, verifyBlock ext block = true

structure Gatekept (ext : Externals) (blockchain : Blockchain) : Prop where
  valid : Valid ext blockchain.chain
  scheduled : ∀ poa ∈ blockchain.consensus, ∀ (i : Nat) (block : Block), 1 ≤ i →
    blockchain.chain[i]? = some block →
    poa.authorities[i % poa.authorities.length]? = some block.validator

theorem PoAConsensus.getProducer_getElem? (poa : PoAConsensus) (index : UInt64) :
    poa.authorities[index.toNat % poa.authorities.length]? = some (poa.getProducer index) :=
  List.getElem?_eq_getElem _

theorem getElem?_push {chain : List Block} {block found : Block} {i : Nat}
    (at_i : (chain ++ [block])[i]? = some found) :
    chain[i]? = some found ∨ (i = chain.length ∧ found = block) := by
  rcases lt_trichotomy i chain.length with inside | rfl | beyond
  · rw [List.getElem?_append_left inside] at at_i
    exact .inl at_i
  · simp only [List.getElem?_concat_length,Option.some.injEq] at at_i
    exact .inr ⟨rfl,at_i.symm⟩
  · rw [List.getElem?_eq_none (by simp; omega)] at at_i
    cases at_i

theorem Valid.push {ext : Externals} {consensus : Option PoAConsensus} {chain : List Block}
    {block : Block} (valid : Valid ext chain) (extends_ : Extends ext consensus chain block) :
    Valid ext (chain ++ [block]) := by
  have positive := List.length_pos_iff.mpr valid.nonempty
  refine ⟨by simp,?_,?_,?_,?_⟩
  · intro i found at_i
    rcases getElem?_push at_i with old | ⟨rfl,rfl⟩
    · exact valid.index i found old
    · exact extends_.index
  · intro found at_0
    rcases getElem?_push at_0 with old | ⟨zero,rfl⟩
    · exact valid.origin found old
    · omega
  · intro i previous found at_i at_next
    rcases getElem?_push at_next with old | ⟨last,rfl⟩
    · have inside := (List.getElem?_eq_some_iff.mp old).1
      rcases getElem?_push at_i with older | ⟨rfl,rfl⟩
      · exact valid.linked i previous found older old
      · omega
    · obtain ⟨latest,is_last,linked⟩ := extends_.linked
      rcases getElem?_push at_i with older | ⟨rfl,rfl⟩
      · rw [List.getLast?_eq_getElem?,← last,Nat.add_sub_cancel,older,Option.some.injEq] at is_last
        rw [linked,is_last]
      · omega
  · intro found member
    rcases List.mem_append.mp member with old | new
    · exact valid.verified found old
    · rw [List.mem_singleton.mp new]; exact extends_.verified

theorem addBlock_gatekept (ext : Externals) (blockchain : Blockchain) (block : Block)
    (safe : Gatekept ext blockchain) : Gatekept ext (blockchain.addBlock ext block).2 := by
  rcases addBlock_cases ext blockchain block with ⟨-,valid,longer,same⟩ | ⟨-,-,unchanged,same⟩
  · constructor
    · rw [longer]; exact safe.valid.push valid
    · intro poa member i found positive at_i
      rw [same] at member
      rw [longer] at at_i
      rcases getElem?_push at_i with old | ⟨rfl,rfl⟩
      · exact safe.scheduled poa member i found positive old
      · rw [valid.scheduled poa member,← valid.index]
        exact PoAConsensus.getProducer_getElem? poa found.index
  · exact ⟨by rw [unchanged]; exact safe.valid,by rw [unchanged,same]; exact safe.scheduled⟩

/-- A run of `addBlock` calls, whatever each of them returns. -/
def addBlocks (ext : Externals) (blockchain : Blockchain) (blocks : List Block) : Blockchain :=
  blocks.foldl (fun blockchain block => (blockchain.addBlock ext block).2) blockchain

theorem addBlocks_gatekept (ext : Externals) (blockchain : Blockchain) (blocks : List Block)
    (safe : Gatekept ext blockchain) : Gatekept ext (blockchain.addBlocks ext blocks) := by
  induction blocks generalizing blockchain with
  | nil => exact safe
  | cons block rest ih => exact ih _ (addBlock_gatekept ext blockchain block safe)

theorem addBlocks_consensus (ext : Externals) (blockchain : Blockchain) (blocks : List Block) :
    (blockchain.addBlocks ext blocks).consensus = blockchain.consensus := by
  induction blocks generalizing blockchain with
  | nil => rfl
  | cons block rest ih => exact (ih _).trans (addBlock_consensus ext blockchain block)

theorem Valid.single {ext : Externals} {genesis : Block} (index : genesis.index = 0)
    (origin : genesis.previousHash = zeroHash) (verified : verifyBlock ext genesis = true) :
    Valid ext [genesis] := by
  refine ⟨by simp,?_,?_,?_,?_⟩
  · intro i block at_i
    obtain ⟨inside,rfl⟩ := List.getElem?_eq_some_iff.mp at_i
    have zero : i = 0 := by simpa using inside
    subst zero
    simp [index]
  · intro block at_0
    obtain ⟨-,rfl⟩ := List.getElem?_eq_some_iff.mp at_0
    exact origin
  · intro i previous block _ at_next
    have inside := (List.getElem?_eq_some_iff.mp at_next).1
    simp at inside
  · intro block member
    rw [List.mem_singleton.mp member]
    exact verified

theorem createGenesisBlock_ok (ext : Externals) {keys : KeyPair} (wellFormed : keys.WellFormed ext) :
    ∃ genesis, createGenesisBlock ext keys = .ok genesis ∧ Valid ext [genesis] := by
  obtain ⟨signature,signed,accepted⟩ := signBlock_wellFormed ext wellFormed
    ⟨0,0,zeroHash,deriveAddress ext keys.publicKey,keys.publicKey,[],[],zeroHash⟩
  refine ⟨_,signed,Valid.single rfl rfl ?_⟩
  rw [verifyBlock_iff]
  exact ⟨rfl,rfl,accepted,by simp⟩

theorem create_gatekept (ext : Externals) {keys : KeyPair} (wellFormed : keys.WellFormed ext)
    (consensus : Option PoAConsensus) :
    ∃ blockchain, create ext keys consensus = .ok blockchain ∧ blockchain.consensus = consensus ∧
      Gatekept ext blockchain := by
  obtain ⟨genesis,created,valid⟩ := createGenesisBlock_ok ext wellFormed
  refine ⟨⟨[genesis],consensus,[],by simp,by simp⟩,?_,rfl,valid,?_⟩
  · rw [create,created]; rfl
  · intro poa _ i block positive at_i
    have inside := (List.getElem?_eq_some_iff.mp at_i).1
    simp at inside
    omega

theorem validateLinks_iff (ext : Externals) (i : Nat) (previous : Block) (rest : List Block) :
    validateLinks ext i previous rest = true ↔
      (∀ (k : Nat) (block : Block), rest[k]? = some block → block.index.toNat = i + k ∧
        verifyBlock ext block = true) ∧
      (∀ (k : Nat) (before block : Block), (previous :: rest)[k]? = some before → rest[k]? = some block →
        block.previousHash = before.hash) := by
  induction rest generalizing i previous with
  | nil => simp [validateLinks]
  | cons current rest ih =>
    unfold validateLinks
    split_ifs with index linked verified
    · simp only [false_iff,not_and]
      intro each
      exact absurd (each 0 current rfl).1 index
    · simp only [false_iff,not_and]
      intro _ links
      exact absurd (links 0 previous current rfl rfl) linked
    · simp only [false_iff,not_and]
      intro each
      rw [(each 0 current rfl).2] at verified
      cases verified
    · rw [ih]
      constructor
      · rintro ⟨each,links⟩
        refine ⟨fun k block at_k => ?_,fun k before block at_before at_k => ?_⟩
        · cases k with
          | zero => cases at_k; exact ⟨not_not.mp index,by simpa using verified⟩
          | succ k => have := each k block at_k; exact ⟨by omega,this.2⟩
        · cases k with
          | zero => cases at_before; cases at_k; exact not_not.mp linked
          | succ k => exact links k before block at_before at_k
      · rintro ⟨each,links⟩
        refine ⟨fun k block at_k => ?_,fun k before block at_before at_k => ?_⟩
        · have := each (k + 1) block at_k; exact ⟨by omega,this.2⟩
        · exact links (k + 1) before block at_before at_k

/-- The re-check never disagrees with the conditions. -/
theorem validateChain_iff (ext : Externals) (blockchain : Blockchain) :
    blockchain.validateChain ext = true ↔ Valid ext blockchain.chain := by
  unfold validateChain
  cases blockchain.chain with
  | nil => simpa using fun valid : Valid ext [] => valid.nonempty rfl
  | cons genesis rest =>
    dsimp only
    split_ifs with index origin verified
    · simp only [false_iff]
      intro valid
      exact index (UInt64.toNat.inj (valid.index 0 genesis rfl))
    · simpa using fun valid : Valid ext (genesis :: rest) => origin (valid.origin genesis rfl)
    · simp only [false_iff]
      intro valid
      rw [valid.verified genesis (by simp)] at verified
      cases verified
    · rw [validateLinks_iff]
      constructor
      · rintro ⟨each,links⟩
        refine ⟨by simp,fun i block at_i => ?_,fun block at_0 => ?_,
          fun i previous block at_i at_next => links i previous block at_i at_next,
          fun block member => ?_⟩
        · cases i with
          | zero => cases at_i; rw [not_not.mp index]; rfl
          | succ i => have := (each i block at_i).1; omega
        · cases at_0; exact not_not.mp origin
        · rcases List.mem_cons.mp member with rfl | inRest
          · simpa using verified
          · obtain ⟨k,at_k⟩ := List.mem_iff_getElem?.mp inRest
            exact (each k block at_k).2
      · intro valid
        refine ⟨fun k block at_k => ⟨?_,valid.verified block ?_⟩,fun k before block at_before at_k =>
          valid.linked k before block at_before at_k⟩
        · have := valid.index (k + 1) block at_k; omega
        · exact List.mem_cons_of_mem _ (List.mem_of_getElem? at_k)

/-- Within one round of a duplicate-free authority list no validator repeats. -/
theorem Gatekept.rotation {ext : Externals} {blockchain : Blockchain} (safe : Gatekept ext blockchain)
    {poa : PoAConsensus} (enabled : poa ∈ blockchain.consensus) (distinct : poa.authorities.Nodup)
    {i j : Nat} {earlier later : Block} (positive : 1 ≤ i) (ordered : i < j)
    (round : j < i + poa.authorities.length) (at_i : blockchain.chain[i]? = some earlier)
    (at_j : blockchain.chain[j]? = some later) : earlier.validator ≠ later.validator := by
  intro same
  have first := safe.scheduled poa enabled i earlier positive at_i
  have second := safe.scheduled poa enabled j later (by omega) at_j
  have residues : i % poa.authorities.length = j % poa.authorities.length := by
    obtain ⟨bound,value⟩ := List.getElem?_eq_some_iff.mp first
    obtain ⟨bound',value'⟩ := List.getElem?_eq_some_iff.mp second
    exact (List.Nodup.getElem_inj_iff distinct).mp (by rw [value,value',same])
  have divides := Nat.dvd_of_mod_eq_zero (Nat.sub_mod_eq_zero_of_mod_eq residues.symm)
  have small := Nat.le_of_dvd (by omega) divides
  omega

/-- Every chain built from a well-formed key by any sequence of `addBlock` calls. -/
theorem gatekeeper (ext : Externals) (keys : KeyPair) (consensus : Option PoAConsensus)
    (blocks : List Block) (wellFormed : keys.WellFormed ext) :
    ∃ initial, create ext keys consensus = .ok initial ∧
      let blockchain := initial.addBlocks ext blocks
      blockchain.chain ≠ [] ∧
      (∀ (i : Nat) (block : Block), blockchain.chain[i]? = some block → block.index.toNat = i) ∧
      (∀ block : Block, blockchain.chain[0]? = some block → block.previousHash = zeroHash) ∧
      (∀ (i : Nat) (previous block : Block), blockchain.chain[i]? = some previous →
        blockchain.chain[i + 1]? = some block → block.previousHash = previous.hash) ∧
      (∀ block ∈ blockchain.chain, verifyBlock ext block = true) ∧
      (∀ poa ∈ consensus, ∀ (i : Nat) (block : Block), 1 ≤ i → blockchain.chain[i]? = some block →
        poa.authorities[i % poa.authorities.length]? = some block.validator) ∧
      (∀ poa ∈ consensus, poa.authorities.Nodup → ∀ (i j : Nat) (earlier later : Block),
        1 ≤ i → i < j → j < i + poa.authorities.length → blockchain.chain[i]? = some earlier →
        blockchain.chain[j]? = some later → earlier.validator ≠ later.validator) ∧
      blockchain.validateChain ext = true ∧
      ∀ block, (blockchain.addBlock ext block).1 = false →
        (blockchain.addBlock ext block).2.chain = blockchain.chain := by
  obtain ⟨initial,created,enabled,start⟩ := create_gatekept ext wellFormed consensus
  have safe := addBlocks_gatekept ext initial blocks start
  have kept : (initial.addBlocks ext blocks).consensus = consensus :=
    (addBlocks_consensus ext initial blocks).trans enabled
  refine ⟨initial,created,safe.valid.nonempty,safe.valid.index,safe.valid.origin,safe.valid.linked,
    safe.valid.verified,?_,?_,(validateChain_iff ext _).mpr safe.valid,addBlock_refused ext _⟩
  · intro poa member
    exact safe.scheduled poa (by rw [kept]; exact member)
  · intro poa member distinct i j earlier later positive ordered round at_i at_j
    exact safe.rotation (by rw [kept]; exact member) distinct positive ordered round at_i at_j

open Reference in
theorem gatekeeper_reference : ∃ initial,
    create libraries validatorKeys (some schedule) = .ok initial ∧
      (initial.addBlocks libraries [first,paying,second]).validateChain libraries = true := by
  obtain ⟨initial,created,-,-,-,-,-,-,-,valid,-⟩ := gatekeeper libraries validatorKeys (some schedule)
    [first,paying,second] validatorKeys_wellFormed
  exact ⟨initial,created,valid⟩

end TitanCore.Blockchain
