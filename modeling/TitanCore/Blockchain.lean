import TitanCore.Block

/-! The append-only chain and the proof-of-authority schedule that guards it. -/
namespace TitanCore

structure PoAConsensus where
  authorities : List Address
  nonempty : 0 < authorities.length

namespace PoAConsensus

def create (authorities : List Address) : Except Exn PoAConsensus :=
  if nonempty : 0 < authorities.length then .ok ⟨authorities,nonempty⟩
  else .error (.invalidArgument (str "PoA authority set cannot be empty — at least one authority is required to produce blocks"))

theorem authorities_injective : Function.Injective authorities := by
  rintro ⟨left,_⟩ ⟨right,_⟩ same
  simpa using same

/-- Round robin over the authority list. -/
def getProducer (consensus : PoAConsensus) (blockIndex : UInt64) : Address :=
  consensus.authorities.get ⟨blockIndex.toNat % consensus.authorities.length,
    Nat.mod_lt _ consensus.nonempty⟩

theorem getProducer_mem (consensus : PoAConsensus) (blockIndex : UInt64) :
    consensus.getProducer blockIndex ∈ consensus.authorities := List.get_mem _ _

/-- `false` comes with the text `getLastError` then returns. -/
def validateBlock (consensus : PoAConsensus) (block : Block) : Except Bytes Unit :=
  let expected := consensus.getProducer block.index
  if block.validator ≠ expected then
    .error (str "Wrong block producer for index " ++ decimal block.index.toNat ++
      str ": expected " ++ toHex expected.val ++ str ", got " ++ toHex block.validator.val)
  else .ok ()

theorem validateBlock_ok (consensus : PoAConsensus) (block : Block) :
    consensus.validateBlock block = .ok () ↔
      block.validator = consensus.getProducer block.index := by
  unfold validateBlock
  by_cases h : block.validator = consensus.getProducer block.index <;> simp [h]

end PoAConsensus

/-- The constructor pushes the genesis block and nothing removes it; a vector's size is a
64-bit number. -/
structure Blockchain where
  chain : List Block
  consensus : Option PoAConsensus
  lastError : Bytes
  nonempty : chain ≠ []
  bounded : chain.length < 2 ^ 64

namespace Blockchain

/-- Both constructors: the consensus is absent in one. -/
def create (ext : Externals) (genesisValidator : KeyPair) (consensus : Option PoAConsensus) :
    Except Exn Blockchain := do
  let genesis ← createGenesisBlock ext genesisValidator
  return ⟨[genesis],consensus,[],by simp,by simp⟩

def getHeight (blockchain : Blockchain) : UInt64 := UInt64.ofNat blockchain.chain.length

def getLatestBlock (blockchain : Blockchain) : Block :=
  blockchain.chain.getLast blockchain.nonempty

def getBlock (blockchain : Blockchain) (index : UInt64) : Except Exn Block :=
  if h : index.toNat < blockchain.chain.length then .ok blockchain.chain[index.toNat]
  else .error ⟨.outOfRange,str "Block index " ++ decimal index.toNat ++
    str " out of range (chain height: " ++ decimal blockchain.chain.length ++ str ")"⟩

section
variable (ext : Externals)

/-- The checks of `addBlock`, in order; an error is the text it leaves behind. -/
def checkBlock (blockchain : Blockchain) (block : Block) : Except Bytes Unit :=
  let expectedIndex := blockchain.getHeight
  let latestHash := blockchain.getLatestBlock.hash
  if block.index ≠ expectedIndex then
    .error (str "Wrong index: expected " ++ decimal expectedIndex.toNat ++ str ", got " ++
      decimal block.index.toNat)
  else if block.previousHash ≠ latestHash then
    .error (str "Previous hash mismatch: expected " ++ toHex latestHash.val ++ str ", got " ++
      toHex block.previousHash.val)
  else if verifyBlock ext block = false then
    .error (str "Block failed integrity verification (verifyBlock)")
  else match blockchain.consensus with
    | none => .ok ()
    | some consensus =>
      match consensus.validateBlock block with
      | .ok () => .ok ()
      | .error text => .error (str "PoA violation: " ++ text)

/-- Append a block that passes every check. The last branch is a vector at its maximal size,
where `push_back` would throw. -/
def addBlock (blockchain : Blockchain) (block : Block) : Bool × Blockchain :=
  match checkBlock ext blockchain block with
  | .error text => (false,{ blockchain with lastError := text })
  | .ok () =>
    if room : blockchain.chain.length + 1 < 2 ^ 64 then
      (true,{ blockchain with
        chain := blockchain.chain ++ [block]
        lastError := []
        nonempty := by simp
        bounded := by simpa using room })
    else (false,{ blockchain with lastError := [] })

/-- The loop of `validateChain` from position `i`, after `previous`. -/
def validateLinks (i : Nat) (previous : Block) : List Block → Bool
  | [] => true
  | current :: rest =>
    if current.index.toNat ≠ i then false
    else if current.previousHash ≠ previous.hash then false
    else if verifyBlock ext current = false then false
    else validateLinks (i + 1) current rest

def validateChain (blockchain : Blockchain) : Bool :=
  match blockchain.chain with
  | [] => false
  | genesis :: rest =>
    if genesis.index ≠ 0 then false
    else if genesis.previousHash ≠ zeroHash then false
    else if verifyBlock ext genesis = false then false
    else validateLinks ext 1 genesis rest

end

@[simp] theorem getHeight_toNat (blockchain : Blockchain) :
    blockchain.getHeight.toNat = blockchain.chain.length := by
  rw [getHeight,UInt64.toNat_ofNat',Nat.mod_eq_of_lt blockchain.bounded]

theorem getLatestBlock_eq (blockchain : Blockchain) :
    blockchain.chain.getLast? = some blockchain.getLatestBlock :=
  List.getLast?_eq_some_getLast blockchain.nonempty

structure Extends (ext : Externals) (consensus : Option PoAConsensus) (chain : List Block)
    (block : Block) : Prop where
  index : block.index.toNat = chain.length
  linked : ∃ latest, chain.getLast? = some latest ∧ block.previousHash = latest.hash
  verified : verifyBlock ext block = true
  scheduled : ∀ poa ∈ consensus, block.validator = poa.getProducer block.index
  room : chain.length + 1 < 2 ^ 64

theorem checkBlock_ok (ext : Externals) (blockchain : Blockchain) (block : Block) :
    checkBlock ext blockchain block = .ok () ↔ block.index = blockchain.getHeight ∧
      block.previousHash = blockchain.getLatestBlock.hash ∧ verifyBlock ext block = true ∧
      ∀ poa ∈ blockchain.consensus, block.validator = poa.getProducer block.index := by
  unfold checkBlock
  by_cases index : block.index = blockchain.getHeight
  case neg => simp [index]
  by_cases linked : block.previousHash = blockchain.getLatestBlock.hash
  case neg => simp [index,linked]
  by_cases verified : verifyBlock ext block = true
  case neg => simp [index,linked,verified]
  cases consensus : blockchain.consensus with
  | none => simp [index,linked,verified]
  | some poa =>
    simp only [index,linked,verified,ne_eq,not_true,Bool.true_eq_false,if_false,true_and,
      Option.mem_some_iff,forall_eq']
    rw [← index,← poa.validateBlock_ok block]
    cases poa.validateBlock block with
    | ok _ => simp
    | error text => simp

/-- A call appends the block exactly when it extends the chain, and otherwise changes nothing
but the error text. -/
theorem addBlock_cases (ext : Externals) (blockchain : Blockchain) (block : Block) :
    ((blockchain.addBlock ext block).1 = true ∧
      Extends ext blockchain.consensus blockchain.chain block ∧
      (blockchain.addBlock ext block).2.chain = blockchain.chain ++ [block] ∧
      (blockchain.addBlock ext block).2.consensus = blockchain.consensus) ∨
    ((blockchain.addBlock ext block).1 = false ∧
      ¬ Extends ext blockchain.consensus blockchain.chain block ∧
      (blockchain.addBlock ext block).2.chain = blockchain.chain ∧
      (blockchain.addBlock ext block).2.consensus = blockchain.consensus) := by
  have checked := checkBlock_ok ext blockchain block
  unfold addBlock
  cases check : checkBlock ext blockchain block with
  | error text =>
    refine .inr ⟨rfl,fun ok => ?_,rfl,rfl⟩
    obtain ⟨latest,last,linked⟩ := ok.linked
    have height : block.index = blockchain.getHeight := by
      apply UInt64.toNat.inj
      rw [ok.index,getHeight_toNat]
    rw [getLatestBlock_eq,Option.some.injEq] at last
    have accepted := checked.mpr ⟨height,by rw [linked,last],ok.verified,ok.scheduled⟩
    rw [check] at accepted
    cases accepted
  | ok _ =>
    obtain ⟨index,linked,verified,scheduled⟩ := checked.mp check
    dsimp only
    split
    case isTrue room =>
      exact .inl ⟨rfl,⟨by rw [index,getHeight_toNat],⟨_,getLatestBlock_eq _,linked⟩,verified,
        scheduled,room⟩,rfl,rfl⟩
    case isFalse full => exact .inr ⟨rfl,fun ok => full ok.room,rfl,rfl⟩

theorem addBlock_refused (ext : Externals) (blockchain : Blockchain) (block : Block)
    (refused : (blockchain.addBlock ext block).1 = false) :
    (blockchain.addBlock ext block).2.chain = blockchain.chain := by
  rcases addBlock_cases ext blockchain block with ⟨accepted,-⟩ | ⟨-,-,same,-⟩
  · rw [refused] at accepted; cases accepted
  · exact same

theorem addBlock_accepted (ext : Externals) (blockchain : Blockchain) (block : Block)
    (accepted : (blockchain.addBlock ext block).1 = true) :
    Extends ext blockchain.consensus blockchain.chain block ∧
      (blockchain.addBlock ext block).2.chain = blockchain.chain ++ [block] := by
  rcases addBlock_cases ext blockchain block with ⟨-,valid,longer,-⟩ | ⟨refused,-⟩
  · exact ⟨valid,longer⟩
  · rw [accepted] at refused; cases refused

@[simp] theorem addBlock_consensus (ext : Externals) (blockchain : Blockchain) (block : Block) :
    (blockchain.addBlock ext block).2.consensus = blockchain.consensus := by
  rcases addBlock_cases ext blockchain block with ⟨-,-,-,same⟩ | ⟨-,-,-,same⟩ <;> exact same

theorem addBlock_of_extends (ext : Externals) (blockchain : Blockchain) (block : Block)
    (valid : Extends ext blockchain.consensus blockchain.chain block) :
    (blockchain.addBlock ext block).1 = true := by
  rcases addBlock_cases ext blockchain block with ⟨accepted,-⟩ | ⟨-,invalid,-⟩
  · exact accepted
  · exact absurd valid invalid

end Blockchain
end TitanCore
