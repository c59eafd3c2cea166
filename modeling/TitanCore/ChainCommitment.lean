import TitanCore.BlockchainInvariant

/-! The hash of the last block commits to the whole history: two valid chains with the same
tip agree block by block, or they exhibit a SHA-256 collision. -/
namespace TitanCore

/-- Every byte string whose digest a block rests on. -/
def Block.preimages (ext : Externals) (block : Block) : List Bytes :=
  headerPreimage ext block :: rootPreimage block.transactions ::
    block.transactions.map (transactionPreimage ext)

def chainPreimages (ext : Externals) (chain : List Block) : List Bytes :=
  chain.flatMap (Block.preimages ext)

/-- Two distinct hashed strings, one of each side, with the same digest. -/
def Collision (ext : Externals) (left right : List Bytes) : Prop :=
  ∃ x ∈ left, ∃ y ∈ right, x ≠ y ∧ ext.sha256 x = ext.sha256 y

/-- All the fields the hash covers, and the hash: everything but the signature. -/
def Transaction.content (tx : Transaction) : Transaction := { tx with signature := [] }

structure Block.SameContent (a b : Block) : Prop where
  index : a.index = b.index
  timestamp : a.timestamp = b.timestamp
  previousHash : a.previousHash = b.previousHash
  validator : a.validator = b.validator
  validatorPublicKey : a.validatorPublicKey = b.validatorPublicKey
  hash : a.hash = b.hash
  transactions : a.transactions.map Transaction.content = b.transactions.map Transaction.content

theorem digest_injective {ext : Externals} {left right : List Bytes}
    (free : ¬ Collision ext left right) {x y : Bytes} (hx : x ∈ left) (hy : y ∈ right)
    (same : ext.sha256 x = ext.sha256 y) : x = y := by
  by_contra different
  exact free ⟨x,hx,y,hy,different,same⟩

/-- The two kinds of signed text part at their first key: an amount or an index. -/
theorem transactionPreimage_ne_headerPreimage (ext : Externals) (tx : Transaction) (block : Block) :
    transactionPreimage ext tx ≠ headerPreimage ext block := by
  intro same
  have values := ext.dump_injective (canonical_signableJson tx) (canonical_headerJson ext block) same
  rw [signableJson_fields,headerJson_fields] at values
  simp only [Json.object.injEq,List.cons.injEq,Prod.mk.injEq] at values
  have keys : str "amount" ≠ str "index" := by decide +kernel
  exact keys values.1.1

/-- What is hashed determines what is meant: no two transactions, no two headers and no two
lists of transaction hashes are hashed from the same bytes, and a transaction and a block
never are, so a digest that both sign exhibits a collision. -/
theorem preimages_unambiguous (ext : Externals) :
    (∀ s t : Transaction, transactionPreimage ext s = transactionPreimage ext t →
      s.sender = t.sender ∧ s.recipient = t.recipient ∧ s.amount = t.amount ∧ s.nonce = t.nonce ∧
      s.timestamp = t.timestamp ∧ s.senderPublicKey = t.senderPublicKey) ∧
    (∀ a b : Block, headerPreimage ext a = headerPreimage ext b →
      a.index = b.index ∧ a.timestamp = b.timestamp ∧ a.previousHash = b.previousHash ∧
      a.validator = b.validator ∧ a.validatorPublicKey = b.validatorPublicKey ∧
      computeTransactionRootHash ext a.transactions =
        computeTransactionRootHash ext b.transactions) ∧
    (∀ left right : List Transaction, rootPreimage left = rootPreimage right →
      left.map Transaction.hash = right.map Transaction.hash) ∧
    (∀ (tx : Transaction) (block : Block),
      transactionPreimage ext tx ≠ headerPreimage ext block) ∧
    ∀ (tx : Transaction) (block : Block),
      computeTransactionHash ext tx = computeBlockHash ext block →
      Collision ext [transactionPreimage ext tx] [headerPreimage ext block] := by
  refine ⟨fun s t same => transactionPreimage_injective ext same,
    fun a b same => headerPreimage_injective ext same,
    fun left right same => rootPreimage_injective same,
    transactionPreimage_ne_headerPreimage ext,?_⟩
  intro tx block digests
  exact ⟨_,List.mem_singleton_self _,_,List.mem_singleton_self _,
    transactionPreimage_ne_headerPreimage ext tx block,digests⟩

open Reference in
/-- Signatures stay outside of what is signed; a digest function that collides everywhere. -/
theorem preimages_unambiguous_unsigned :
    payment.sender = { payment with signature := [] }.sender ∧
    first.index = { first with signature := [] }.index ∧
    [payment].map Transaction.hash = [{ payment with signature := [] }].map Transaction.hash ∧
    Collision { libraries with sha256 := fun _ => zeroHash }
      [transactionPreimage { libraries with sha256 := fun _ => zeroHash } payment]
      [headerPreimage { libraries with sha256 := fun _ => zeroHash } first] := by
  obtain ⟨transactions,headers,roots,-,-⟩ := preimages_unambiguous libraries
  refine ⟨(transactions payment { payment with signature := [] } rfl).1,
    (headers first { first with signature := [] } rfl).1,
    roots [payment] [{ payment with signature := [] }] rfl,?_⟩
  exact (preimages_unambiguous { libraries with sha256 := fun _ => zeroHash }).2.2.2.2 payment first rfl

theorem Transaction.sameContent {ext : Externals} {s t : Transaction}
    (verified_s : verifyTransaction ext s = true) (verified_t : verifyTransaction ext t = true)
    (hash : s.hash = t.hash)
    (injective : ext.sha256 (transactionPreimage ext s) = ext.sha256 (transactionPreimage ext t) →
      transactionPreimage ext s = transactionPreimage ext t) : s.content = t.content := by
  obtain ⟨-,digest_s,-⟩ := (verifyTransaction_iff ext s).mp verified_s
  obtain ⟨-,digest_t,-⟩ := (verifyTransaction_iff ext t).mp verified_t
  have preimages := injective (digest_s.trans (hash.trans digest_t.symm))
  obtain ⟨sender,recipient,amount,nonce,timestamp,key⟩ := transactionPreimage_injective ext preimages
  simp only [Transaction.content,sender,recipient,amount,nonce,timestamp,key,hash]

/-- Lists with the same hashes have the same contents, unless two preimages collide. -/
theorem transactions_sameContent {ext : Externals} {left right : List Transaction}
    (verified_left : ∀ tx ∈ left, verifyTransaction ext tx = true)
    (verified_right : ∀ tx ∈ right, verifyTransaction ext tx = true)
    (hashes : left.map Transaction.hash = right.map Transaction.hash)
    (free : ¬ Collision ext (left.map (transactionPreimage ext))
      (right.map (transactionPreimage ext))) :
    left.map Transaction.content = right.map Transaction.content := by
  induction left generalizing right with
  | nil =>
    cases right with
    | nil => rfl
    | cons t right => simp at hashes
  | cons s left ih =>
    cases right with
    | nil => simp at hashes
    | cons t right =>
      simp only [List.map_cons,List.cons.injEq] at hashes ⊢
      refine ⟨Transaction.sameContent (verified_left s (by simp)) (verified_right t (by simp))
        hashes.1 (digest_injective free (by simp) (by simp)),?_⟩
      apply ih (fun tx member => verified_left tx (List.mem_cons_of_mem _ member))
        (fun tx member => verified_right tx (List.mem_cons_of_mem _ member)) hashes.2
      rintro ⟨x,hx,y,hy,collision⟩
      exact free ⟨x,List.mem_cons_of_mem _ hx,y,List.mem_cons_of_mem _ hy,collision⟩

theorem Block.sameContent {ext : Externals} {a b : Block} (verified_a : verifyBlock ext a = true)
    (verified_b : verifyBlock ext b = true) (hash : a.hash = b.hash)
    (free : ¬ Collision ext (a.preimages ext) (b.preimages ext)) : a.SameContent b := by
  obtain ⟨-,digest_a,-,transactions_a⟩ := (verifyBlock_iff ext a).mp verified_a
  obtain ⟨-,digest_b,-,transactions_b⟩ := (verifyBlock_iff ext b).mp verified_b
  have headers : headerPreimage ext a = headerPreimage ext b :=
    digest_injective free (by simp [Block.preimages]) (by simp [Block.preimages])
      (digest_a.trans (hash.trans digest_b.symm))
  obtain ⟨index,timestamp,previous,validator,key,root⟩ := headerPreimage_injective ext headers
  have roots : rootPreimage a.transactions = rootPreimage b.transactions :=
    digest_injective free (by simp [Block.preimages]) (by simp [Block.preimages]) root
  refine ⟨index,timestamp,previous,validator,key,hash,
    transactions_sameContent transactions_a transactions_b (rootPreimage_injective roots) ?_⟩
  rintro ⟨x,hx,y,hy,collision⟩
  exact free ⟨x,List.mem_cons_of_mem _ (List.mem_cons_of_mem _ hx),y,
    List.mem_cons_of_mem _ (List.mem_cons_of_mem _ hy),collision⟩

theorem mem_chainPreimages {ext : Externals} {chain : List Block} {block : Block} {x : Bytes}
    (inChain : block ∈ chain) (inBlock : x ∈ block.preimages ext) : x ∈ chainPreimages ext chain :=
  List.mem_flatMap.mpr ⟨block,inChain,inBlock⟩

namespace Blockchain

theorem sameContent_at {ext : Externals} {left right : List Block} (valid_left : Valid ext left)
    (valid_right : Valid ext right)
    (free : ¬ Collision ext (chainPreimages ext left) (chainPreimages ext right)) {i j : Nat}
    {a b : Block} (at_i : left[i]? = some a) (at_j : right[j]? = some b) (hash : a.hash = b.hash) :
    a.SameContent b := by
  have in_left := List.mem_of_getElem? at_i
  have in_right := List.mem_of_getElem? at_j
  apply Block.sameContent (valid_left.verified a in_left) (valid_right.verified b in_right) hash
  rintro ⟨x,hx,y,hy,collision⟩
  exact free ⟨x,mem_chainPreimages in_left hx,y,mem_chainPreimages in_right hy,collision⟩

/-- Backward from any position with equal hashes: `steps` positions before it the hashes are
equal as well. -/
theorem hashes_before {ext : Externals} {left right : List Block} (valid_left : Valid ext left)
    (valid_right : Valid ext right)
    (free : ¬ Collision ext (chainPreimages ext left) (chainPreimages ext right)) (steps i : Nat)
    {a b tip_a tip_b : Block} (tip_left : left[i + steps]? = some tip_a)
    (tip_right : right[i + steps]? = some tip_b) (tips : tip_a.hash = tip_b.hash)
    (at_left : left[i]? = some a) (at_right : right[i]? = some b) : a.hash = b.hash := by
  induction steps generalizing i a b with
  | zero =>
    rw [Nat.add_zero] at tip_left tip_right
    rw [tip_left,Option.some.injEq] at at_left
    rw [tip_right,Option.some.injEq] at at_right
    rw [← at_left,← at_right,tips]
  | succ steps ih =>
    have inside_left := (List.getElem?_eq_some_iff.mp tip_left).1
    have inside_right := (List.getElem?_eq_some_iff.mp tip_right).1
    have next_left := List.getElem?_eq_getElem (l := left) (i := i + 1) (by omega)
    have next_right := List.getElem?_eq_getElem (l := right) (i := i + 1) (by omega)
    have later := ih (i + 1) (by rw [← tip_left]; congr 1; omega)
      (by rw [← tip_right]; congr 1; omega) next_left next_right
    have same := sameContent_at valid_left valid_right free next_left next_right later
    rw [← valid_left.linked i a _ at_left next_left,← valid_right.linked i b _ at_right next_right]
    exact same.previousHash

theorem Valid.last {ext : Externals} {chain : List Block} (valid : Valid ext chain) {latest : Block}
    (is_last : chain.getLast? = some latest) :
    chain[chain.length - 1]? = some latest ∧ latest.index.toNat + 1 = chain.length := by
  have positive := List.length_pos_iff.mpr valid.nonempty
  rw [List.getLast?_eq_getElem?] at is_last
  refine ⟨is_last,?_⟩
  rw [valid.index _ _ is_last]
  omega

/-- Equal tips make equal histories, position by position, or a collision. -/
theorem tip_commits (ext : Externals) (left right : Blockchain)
    (valid_left : left.validateChain ext = true) (valid_right : right.validateChain ext = true)
    (tips : left.getLatestBlock.hash = right.getLatestBlock.hash) :
    (left.chain.length = right.chain.length ∧
      ∀ (i : Nat) (a b : Block), left.chain[i]? = some a → right.chain[i]? = some b →
        a.SameContent b) ∨
    Collision ext (chainPreimages ext left.chain) (chainPreimages ext right.chain) := by
  rw [validateChain_iff] at valid_left valid_right
  by_cases free : Collision ext (chainPreimages ext left.chain) (chainPreimages ext right.chain)
  case pos => exact .inr free
  left
  obtain ⟨tip_left,height_left⟩ := valid_left.last (getLatestBlock_eq left)
  obtain ⟨tip_right,height_right⟩ := valid_right.last (getLatestBlock_eq right)
  have last := sameContent_at valid_left valid_right free tip_left tip_right tips
  have lengths : left.chain.length = right.chain.length := by
    rw [← height_left,← height_right,last.index]
  refine ⟨lengths,fun i a b at_left at_right => ?_⟩
  have inside := (List.getElem?_eq_some_iff.mp at_left).1
  have hashes := hashes_before valid_left valid_right free (left.chain.length - 1 - i) i
    (by rw [← tip_left]; congr 1; omega) (by rw [← tip_right]; congr 1; omega) tips at_left at_right
  exact sameContent_at valid_left valid_right free at_left at_right hashes

open Reference in
/-- A chain with a schedule and one without, on the same blocks. -/
theorem tip_commits_reference : ∃ left right : Blockchain, left.chain.length = 2 ∧
    left.getLatestBlock.hash = right.getLatestBlock.hash ∧
    ((left.chain.length = right.chain.length ∧
      ∀ (i : Nat) (a b : Block), left.chain[i]? = some a → right.chain[i]? = some b →
        a.SameContent b) ∨
    Collision libraries (chainPreimages libraries left.chain)
      (chainPreimages libraries right.chain)) := by
  obtain ⟨left,made_left,-,start_left⟩ := create_gatekept libraries validatorKeys_wellFormed none
  obtain ⟨right,made_right,-,start_right⟩ :=
    create_gatekept libraries validatorKeys_wellFormed (some schedule)
  have ran : ((create libraries validatorKeys none).toOption.any fun left =>
      (create libraries validatorKeys (some schedule)).toOption.any fun right =>
      (left.addBlocks libraries [first]).chain.length = 2 ∧
      (left.addBlocks libraries [first]).getLatestBlock.hash =
        (right.addBlocks libraries [first,paying]).getLatestBlock.hash) = true := by decide +kernel
  rw [made_left,made_right] at ran
  obtain ⟨two,tips⟩ := of_decide_eq_true ran
  refine ⟨_,_,two,tips,tip_commits libraries _ _ ?_ ?_ tips⟩
  · exact (validateChain_iff libraries _).mpr (addBlocks_gatekept libraries left _ start_left).valid
  · exact (validateChain_iff libraries _).mpr (addBlocks_gatekept libraries right _ start_right).valid

end Blockchain
end TitanCore
