import TitanCore.StateConservation

/-! Replay protection: over any run of `applyBlock` calls the transactions that took effect use
the nonces of each sender one after the other, each once. -/
namespace TitanCore.StateManager

def appliedTransactions (state : StateManager) : List Block → List Transaction
  | [] => []
  | block :: rest =>
    (if (state.applyBlock block).1 then block.transactions else []) ++
      appliedTransactions (state.applyBlock block).2 rest

def sentBy (address : Address) (transactions : List Transaction) : List Transaction :=
  transactions.filter fun tx => tx.sender = address

def nonceOf (accounts : Accounts) (address : Address) : UInt64 :=
  (accounts.lookup address).elim 0 AccountState.nonce

def nonceList (first : UInt64) (count : Nat) : List UInt64 :=
  (List.range count).map fun i => first + UInt64.ofNat i

@[simp] theorem nonceList_length (first : UInt64) (count : Nat) :
    (nonceList first count).length = count := by simp [nonceList]

theorem nonceList_append (first : UInt64) (m n : Nat) :
    nonceList first (m + n) = nonceList first m ++ nonceList (first + UInt64.ofNat m) n := by
  simp only [nonceList,List.range_add,List.map_append,List.map_map]
  congr 1
  apply List.map_congr_left
  intro i _
  simp only [Function.comp_apply,UInt64.ofNat_add,UInt64.add_assoc]

theorem nonceList_succ (first : UInt64) (count : Nat) :
    nonceList first (count + 1) = first :: nonceList (first + 1) count := by
  have one : nonceList first 1 = [first] := by simp [nonceList]
  rw [Nat.add_comm,nonceList_append,one]
  rfl

theorem nonceList_nodup (first : UInt64) {count : Nat} (small : count ≤ 2 ^ 64) :
    (nonceList first count).Nodup := by
  refine List.Nodup.map_on (fun i inside j inside' same => ?_) List.nodup_range
  have bound := List.mem_range.mp inside
  have bound' := List.mem_range.mp inside'
  have offset := congrArg UInt64.toNat ((UInt64.add_right_inj first).mp same)
  rwa [UInt64.toNat_ofNat',UInt64.toNat_ofNat',Nat.mod_eq_of_lt (by omega),
    Nat.mod_eq_of_lt (by omega)] at offset

theorem sentBy_append (address : Address) (earlier later : List Transaction) :
    sentBy address (earlier ++ later) = sentBy address earlier ++ sentBy address later :=
  List.filter_append earlier later

theorem getNonce_eq (state : StateManager) (address : Address) :
    state.getNonce address = nonceOf state.accounts address := by
  unfold getNonce nonceOf
  cases state.accounts.lookup address <;> rfl

/-- A transfer raises the sender's nonce, and creates accounts with nonce zero only. -/
theorem nonceOf_transfer (accounts : Accounts) (account : AccountState) (tx : Transaction)
    (address : Address) : nonceOf (transfer accounts account tx) address =
      if address = tx.sender then account.nonce + 1 else nonceOf accounts address := by
  unfold nonceOf transfer
  by_cases credited : address = tx.recipient
  · subst credited
    by_cases self : tx.recipient = tx.sender
    · rw [if_pos self,self]
      simp
    · rw [if_neg self,Finmap.lookup_insert,Finmap.lookup_insert_of_ne _ self]
      cases accounts.lookup tx.recipient <;> rfl
  · rw [Finmap.lookup_insert_of_ne _ credited]
    by_cases self : address = tx.sender
    · rw [if_pos self,self]
      simp
    · rw [if_neg self,Finmap.lookup_insert_of_ne _ self]

/-- What `count` sent transactions did to the nonce of an address. -/
structure Numbered (before after : UInt64) (sent : List Transaction) : Prop where
  nonces : sent.map Transaction.nonce = nonceList before sent.length
  after : after = before + UInt64.ofNat sent.length

theorem Numbered.nil (nonce : UInt64) : Numbered nonce nonce [] :=
  ⟨rfl,by simp⟩

theorem Numbered.append {before middle after : UInt64} {earlier later : List Transaction}
    (first : Numbered before middle earlier) (second : Numbered middle after later) :
    Numbered before after (earlier ++ later) := by
  constructor
  · rw [List.map_append,first.nonces,second.nonces,first.after,List.length_append,nonceList_append]
  · rw [second.after,first.after,List.length_append,UInt64.ofNat_add,UInt64.add_assoc]

theorem Pays.numbered {accounts final : Accounts} {transactions : List Transaction}
    (pays : Pays accounts transactions final) (address : Address) :
    Numbered (nonceOf accounts address) (nonceOf final address) (sentBy address transactions) := by
  induction pays with
  | nil => exact .nil _
  | @cons accounts final tx rest account payable _ ih =>
    rw [nonceOf_transfer] at ih
    by_cases self : address = tx.sender
    · subst self
      have current : nonceOf accounts tx.sender = tx.nonce := by
        rw [nonceOf,payable.held]
        exact payable.ordered.symm
      have head : Numbered (nonceOf accounts tx.sender) (account.nonce + 1) [tx] :=
        ⟨by rw [current]; simp [nonceList],by rw [current,payable.ordered]; rfl⟩
      rw [if_pos rfl] at ih
      have whole := head.append ih
      rwa [sentBy,List.filter_cons_of_pos (by simp)]
    · rw [if_neg self] at ih
      rwa [sentBy,List.filter_cons_of_neg (by simpa using Ne.symm self)]

theorem applyBlock_numbered (state : StateManager) (block : Block) (address : Address) :
    Numbered (nonceOf state.accounts address) (nonceOf (state.applyBlock block).2.accounts address)
      (sentBy address (if (state.applyBlock block).1 then block.transactions else [])) := by
  rcases applyBlock_cases state block with ⟨accepted,pays⟩ | ⟨refused,same,-⟩
  · rw [if_pos accepted]
    exact pays.numbered address
  · rw [if_neg (by simp [refused]),same]
    exact .nil _

/-- Over a run the nonces go on where the last successful call left them. -/
theorem applyBlocks_numbered (state : StateManager) (blocks : List Block) (address : Address) :
    Numbered (nonceOf state.accounts address) (nonceOf (state.applyBlocks blocks).accounts address)
      (sentBy address (state.appliedTransactions blocks)) := by
  induction blocks generalizing state with
  | nil => exact .nil _
  | cons block rest ih =>
    rw [appliedTransactions,sentBy_append]
    exact (applyBlock_numbered state block address).append (ih (state.applyBlock block).2)

/-- A run of nonces that never reaches the last value is a run of numbers. -/
theorem Numbered.exact {after : UInt64} {sent : List Transaction} (numbered : Numbered 0 after sent)
    (fits : ∀ tx ∈ sent, tx.nonce.toNat + 1 < 2 ^ 64) :
    sent.map (fun tx => tx.nonce.toNat) = List.range sent.length ∧ after.toNat = sent.length := by
  have short : sent.length < 2 ^ 64 := by
    by_contra long
    have last : (nonceList 0 sent.length)[2 ^ 64 - 1]? = some (UInt64.ofNat (2 ^ 64 - 1)) := by
      rw [nonceList,List.getElem?_map,List.getElem?_range (by omega)]
      simp
    rw [← numbered.nonces,List.getElem?_map,Option.map_eq_some_iff] at last
    obtain ⟨tx,at_last,nonce⟩ := last
    have small := fits tx (List.mem_of_getElem? at_last)
    rw [nonce] at small
    exact absurd small (by decide)
  constructor
  · have numbers := congrArg (List.map UInt64.toNat) numbered.nonces
    rw [List.map_map,nonceList,List.map_map] at numbers
    rw [show (fun tx : Transaction => tx.nonce.toNat) = UInt64.toNat ∘ Transaction.nonce from rfl,
      numbers]
    conv_rhs => rw [← List.map_id (List.range sent.length)]
    apply List.map_congr_left
    intro i member
    have inside := List.mem_range.mp member
    simp only [Function.comp_apply,UInt64.zero_add,UInt64.toNat_ofNat',id]
    exact Nat.mod_eq_of_lt (by omega)
  · rw [numbered.after,UInt64.zero_add,UInt64.toNat_ofNat',Nat.mod_eq_of_lt short]

/-- Pairs are distinct when, for each first component, the second ones are. -/
theorem nodup_pairs {transactions : List Transaction}
    (each : ∀ sender, ((sentBy sender transactions).map Transaction.nonce).Nodup) :
    (transactions.map fun tx => (tx.sender,tx.nonce)).Nodup := by
  rw [List.Nodup,List.pairwise_map,List.pairwise_iff_getElem]
  intro i j inside inside' ordered same
  obtain ⟨senders,nonces⟩ := Prod.mk.inj same
  have distinct := each transactions[i].sender
  rw [List.Nodup,List.pairwise_map,sentBy,List.pairwise_filter,List.pairwise_iff_getElem] at distinct
  exact distinct i j inside inside' ordered (by simp) (by simp [senders]) nonces

theorem nonceOf_create (genesisAllocations : AddressMap UInt64) (address : Address) :
    nonceOf (create genesisAllocations).accounts address = 0 := by
  unfold nonceOf create
  rw [FiniteMap.lookup_mapValues]
  cases genesisAllocations.lookup address <;> rfl

/-- No transaction takes effect twice, whatever blocks are applied, as long as no nonce reaches
2^64. -/
theorem replay_protection (genesisAllocations : AddressMap UInt64) (blocks : List Block)
    (fits : ∀ tx ∈ (create genesisAllocations).appliedTransactions blocks,
      tx.nonce.toNat + 1 < 2 ^ 64) :
    let applied := (create genesisAllocations).appliedTransactions blocks
    (∀ sender, (sentBy sender applied).map (fun tx => tx.nonce.toNat) =
      List.range (sentBy sender applied).length) ∧
    (applied.map fun tx => (tx.sender,tx.nonce)).Nodup ∧ applied.Nodup ∧
    ∀ sender, (((create genesisAllocations).applyBlocks blocks).getNonce sender).toNat =
      (sentBy sender applied).length := by
  intro applied
  have each : ∀ sender, (sentBy sender applied).map (fun tx => tx.nonce.toNat) =
        List.range (sentBy sender applied).length ∧
      (nonceOf ((create genesisAllocations).applyBlocks blocks).accounts sender).toNat =
        (sentBy sender applied).length := by
    intro sender
    have numbered := applyBlocks_numbered (create genesisAllocations) blocks sender
    rw [nonceOf_create] at numbered
    exact numbered.exact fun tx member => fits tx (List.mem_of_mem_filter member)
  have pairs : (applied.map fun tx => (tx.sender,tx.nonce)).Nodup := by
    apply nodup_pairs
    intro sender
    have numbers : ((sentBy sender applied).map fun tx => tx.nonce.toNat).Nodup := by
      rw [(each sender).1]
      exact List.nodup_range
    rw [show (fun tx : Transaction => tx.nonce.toNat) = UInt64.toNat ∘ Transaction.nonce from rfl,
      ← List.map_map] at numbers
    exact numbers.of_map
  refine ⟨fun sender => (each sender).1,pairs,pairs.of_map,fun sender => ?_⟩
  rw [getNonce_eq]
  exact (each sender).2

/-- The same block three times: the second and third call fail. -/
theorem replay_protection_repeated :
    let sender : Address := ⟨List.replicate 20 1,rfl⟩
    let spend (nonce : UInt64) : Transaction :=
      ⟨sender,sender,3,nonce,0,⟨List.replicate 33 0,rfl⟩,[],zeroHash⟩
    let block : Block := ⟨1,0,zeroHash,sender,⟨List.replicate 33 0,rfl⟩,[spend 0,spend 1],[],zeroHash⟩
    let state := create ((∅ : AddressMap UInt64).insert sender 10)
    (state.appliedTransactions [block,block,block]).length = 2 ∧
      (state.appliedTransactions [block,block,block]).Nodup ∧
      ((state.applyBlocks [block,block,block]).getNonce sender).toNat =
        (sentBy sender (state.appliedTransactions [block,block,block])).length := by
  intro sender spend block state
  obtain ⟨-,-,once,stored⟩ := replay_protection ((∅ : AddressMap UInt64).insert sender 10)
    [block,block,block] (by decide +kernel)
  exact ⟨by decide +kernel,once,stored sender⟩

end TitanCore.StateManager
