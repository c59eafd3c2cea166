import TitanCore.StateConservation

/-! The genesis file and the allocations it gives. The loader does not add them up: a transfer
is exact on every run exactly when their total fits in 64 bits. -/
namespace TitanCore

structure AuthorityInfo where
  address : Address
  publicKey : PublicKey
  allocation : UInt64

structure GenesisConfig where
  genesisValidatorPrivateKey : PrivateKey
  authorities : List AuthorityInfo

namespace GenesisConfig

/-- A later entry of an address replaces an earlier one. -/
def getAllocations (config : GenesisConfig) : AddressMap UInt64 :=
  config.authorities.foldl (fun allocs auth => allocs.insert auth.address auth.allocation) ∅

end GenesisConfig

def authorityFromJson (a : Json) : Except Exn AuthorityInfo := do
  let address ← fromHexFixed 20 (← (← a.at? (str "address")).getString)
  let publicKey ← fromHexFixed 33 (← (← a.at? (str "publicKey")).getString)
  let allocation ← (← a.at? (str "allocation")).getUInt64
  return { address,publicKey,allocation }

def authoritiesFromJson : List Json → Except Exn (List AuthorityInfo)
  | [] => .ok []
  | a :: rest => do
    let auth ← authorityFromJson a
    let auths ← authoritiesFromJson rest
    return auth :: auths

/-- `file` is what `operator>>` reads from the opened file, or the exception it throws; it is
absent when the file does not open. -/
def loadGenesisConfig (path : Bytes) (file : Option (Except Exn Json)) : Except Exn GenesisConfig :=
  match file with
  | none => .error (.runtimeError (str "Failed to open genesis config: " ++ path))
  | some contents => do
    let j ← contents
    let genKeyHex ← (← j.at? (str "genesisValidatorPrivateKey")).getString
    let genesisValidatorPrivateKey ← fromHexFixed 32 genKeyHex
    let authorities ← authoritiesFromJson (← j.at? (str "authorities")).elements
    return { genesisValidatorPrivateKey,authorities }

namespace StateManager

/-- Every transfer of every successful call, after any calls, credits another account exactly. -/
def CreditsExact (state : StateManager) : Prop :=
  ∀ (blocks : List Block) (block : Block) (before : Accounts) (account : AccountState)
    (tx : Transaction), ((state.applyBlocks blocks).applyBlock block).1 = true →
    Executes (state.applyBlocks blocks).accounts block.transactions before account tx →
    tx.recipient ≠ tx.sender →
    (balanceOf (transfer before account tx) tx.recipient).toNat =
      (balanceOf before tx.recipient).toNat + tx.amount.toNat

theorem CreditsExact.later {state : StateManager} (exact : CreditsExact state)
    (blocks : List Block) : CreditsExact (state.applyBlocks blocks) := by
  intro later block before account tx
  have joined : (state.applyBlocks blocks).applyBlocks later = state.applyBlocks (blocks ++ later) := by
    rw [applyBlocks,applyBlocks,applyBlocks,List.foldl_append]
  rw [joined]
  exact exact (blocks ++ later) block before account tx

/-- One exact credit keeps the supply. -/
theorem supply_transfer_of_exact {accounts : Accounts} {account : AccountState} {tx : Transaction}
    (payable : Payable accounts tx account)
    (exact : ((credited accounts account tx).balance + tx.amount).toNat =
      (credited accounts account tx).balance.toNat + tx.amount.toNat) :
    supply (transfer accounts account tx) = supply accounts := by
  have debit := supply_debit payable
  obtain ⟨credit,-⟩ := supply_credit
    (accounts.insert tx.sender ⟨account.balance - tx.amount,account.nonce + 1⟩) tx.recipient tx.amount
  simp only [transfer,credited] at credit exact ⊢
  omega

/-- Below 2^64 every credit is exact. -/
theorem creditsExact_of_supply {state : StateManager} (fits : supply state.accounts < 2 ^ 64) :
    CreditsExact state := by
  intro blocks block before account tx _ executed other
  have small : supply (state.applyBlocks blocks).accounts < 2 ^ 64 := by
    rw [supply_applyBlocks_exact state blocks fits]
    exact fits
  rw [balanceOf_recipient,(executes_exact small executed).2,credited_other other]

def donation (sender recipient : Address) (account : AccountState) : Transaction where
  sender := sender
  recipient := recipient
  amount := account.balance
  nonce := account.nonce
  timestamp := 0
  senderPublicKey := ⟨List.replicate 33 0,rfl⟩
  signature := []
  hash := zeroHash

def donationBlock (tx : Transaction) : Block where
  index := 0
  timestamp := 0
  previousHash := zeroHash
  validator := tx.sender
  validatorPublicKey := tx.senderPublicKey
  transactions := [tx]
  signature := []
  hash := zeroHash

/-- It leaves the sender with nothing and touches no third account. When credits are exact, it
keeps the supply. -/
theorem donation_applied {state : StateManager} (exact : CreditsExact state)
    {sender recipient : Address} {account : AccountState} (other : recipient ≠ sender)
    (held : state.accounts.lookup sender = some account) :
    let after := (state.applyBlock (donationBlock (donation sender recipient account))).2.accounts
    supply after = supply state.accounts ∧ balanceOf after sender = 0 ∧
      ∀ address, address ≠ sender → address ≠ recipient →
        balanceOf after address = balanceOf state.accounts address := by
  intro after
  have payable : Payable state.accounts (donation sender recipient account) account :=
    ⟨held,UInt64.le_refl _,rfl⟩
  have pays : Pays state.accounts [donation sender recipient account]
      (transfer state.accounts account (donation sender recipient account)) :=
    .cons payable (.nil _)
  have applied : state.applyBlock (donationBlock (donation sender recipient account)) =
      (true,⟨transfer state.accounts account (donation sender recipient account),[]⟩) := by
    have done := (applyTransactions_iff 0 ..).mpr pays
    rw [applyBlock,donationBlock,done]
  have result : after = transfer state.accounts account (donation sender recipient account) := by
    change (state.applyBlock _).2.accounts = _
    rw [applied]
  have apart : (donation sender recipient account).recipient ≠
    (donation sender recipient account).sender := other
  rw [result]
  refine ⟨supply_transfer_of_exact payable ?_,?_,fun address differs away =>
    balanceOf_third account differs away⟩
  · have accepted : ((state.applyBlocks []).applyBlock
        (donationBlock (donation sender recipient account))).1 = true := congrArg Prod.fst applied
    have credit := exact [] _ state.accounts account _ accepted (.here payable) apart
    rw [balanceOf_recipient] at credit
    rw [credit,credited_other apart]
  · exact (balanceOf_sender account apart).trans (UInt64.sub_self _)

/-- Every listed account but one gives all it has to that one. -/
theorem collect {state : StateManager} (exact : CreditsExact state) (target : Address)
    (addresses : List Address) : ∃ blocks,
      supply (state.applyBlocks blocks).accounts = supply state.accounts ∧
      ∀ address, address ≠ target → balanceOf (state.applyBlocks blocks).accounts address ≠ 0 →
        address ∉ addresses ∧ balanceOf state.accounts address ≠ 0 := by
  induction addresses generalizing state with
  | nil => exact ⟨[],rfl,fun address _ some_left => ⟨by simp,some_left⟩⟩
  | cons sender rest ih =>
    by_cases idle : sender = target ∨ balanceOf state.accounts sender = 0
    · obtain ⟨blocks,same,left⟩ := ih exact
      refine ⟨blocks,same,fun address apart some_left => ?_⟩
      obtain ⟨unlisted,before⟩ := left address apart some_left
      refine ⟨fun member => ?_,before⟩
      rcases List.mem_cons.mp member with rfl | listed
      · exact idle.elim apart before
      · exact unlisted listed
    · rw [not_or] at idle
      cases held : state.accounts.lookup sender with
      | none =>
        refine absurd ?_ idle.2
        rw [balanceOf,held]
        rfl
      | some account =>
        obtain ⟨same,empty,others⟩ := donation_applied exact (Ne.symm idle.1) held
        obtain ⟨blocks,same',left⟩ :=
          ih (exact.later [donationBlock (donation sender target account)])
        refine ⟨donationBlock (donation sender target account) :: blocks,same'.trans same,
          fun address apart some_left => ?_⟩
        obtain ⟨unlisted,before⟩ := left address apart some_left
        have paid : address ≠ sender := by
          rintro rfl
          exact before empty
        rw [show (state.applyBlocks [donationBlock (donation sender target account)]).accounts =
          (state.applyBlock (donationBlock (donation sender target account))).2.accounts from rfl,
          others address paid apart] at before
        exact ⟨List.not_mem_cons_of_ne_of_not_mem paid unlisted,before⟩

/-- When the supply does not fit, somebody can be paid more than fits. -/
theorem supply_of_creditsExact {state : StateManager} (exact : CreditsExact state) :
    supply state.accounts < 2 ^ 64 := by
  obtain ⟨blocks,same,left⟩ := collect exact ⟨List.replicate 20 0,rfl⟩ state.accounts.keys.toList
  have alone : ∀ address account, address ≠ ⟨List.replicate 20 0,rfl⟩ →
      (state.applyBlocks blocks).accounts.lookup address = some account →
      account.balance.toNat = 0 := by
    intro address account apart held
    by_contra some_left
    have holds : balanceOf (state.applyBlocks blocks).accounts address ≠ 0 := by
      rw [balanceOf,held]
      intro none_left
      exact some_left (congrArg UInt64.toNat none_left)
    obtain ⟨unlisted,before⟩ := left address apart holds
    rw [Finset.mem_toList,Finmap.mem_keys,← Finmap.lookup_isSome,Bool.not_eq_true,
      Option.isSome_eq_false_iff,Option.isNone_iff_eq_none] at unlisted
    refine before ?_
    rw [balanceOf,unlisted]
    rfl
  have total := FiniteMap.total_eq_single (fun account : AccountState => account.balance.toNat) alone
  rw [← same,supply,total]
  cases (state.applyBlocks blocks).accounts.lookup _ with
  | none => exact Nat.two_pow_pos 64
  | some account => exact account.balance.toNat_lt

/-- Transfers from the allocations of a genesis file are exact on every run exactly when the
allocations fit together in 64 bits. -/
theorem genesis_credits_exact (path : Bytes) (file : Option (Except Exn Json))
    (config : GenesisConfig) (_ : loadGenesisConfig path file = .ok config) :
    CreditsExact (create config.getAllocations) ↔ allocated config.getAllocations < 2 ^ 64 := by
  rw [← supply_create]
  exact ⟨supply_of_creditsExact,creditsExact_of_supply⟩

def genesisFile (first second : UInt64) : Json :=
  let authority (n : UInt8) (allocation : UInt64) : Json := .object [
    (str "address",.string (toHex (List.replicate 20 n))),(str "allocation",.unsigned allocation),
    (str "publicKey",.string (toHex (List.replicate 33 n)))]
  .object [(str "authorities",.array [authority 1 first,authority 2 second]),
    (str "genesisValidatorPrivateKey",.string (toHex (List.replicate 32 1)))]

theorem genesis_credits_exact_small : ∃ config,
    loadGenesisConfig (str "genesis.json") (some (.ok (genesisFile 10000 10000))) = .ok config ∧
      CreditsExact (create config.getAllocations) := by
  have loaded : ((loadGenesisConfig (str "genesis.json")
      (some (.ok (genesisFile 10000 10000)))).toOption.any fun config =>
        allocated config.getAllocations = 20000) = true := by decide +kernel
  cases load : loadGenesisConfig (str "genesis.json") (some (.ok (genesisFile 10000 10000))) with
  | error e =>
    rw [load] at loaded
    cases loaded
  | ok config =>
    rw [load] at loaded
    have total : allocated config.getAllocations = 20000 := of_decide_eq_true loaded
    exact ⟨config,rfl,(genesis_credits_exact _ _ config load).mpr (by rw [total]; decide)⟩

/-- The second authority pays one to the first, who has all that fits: nothing is left. -/
theorem genesis_credit_wraps : ¬ ∀ (path : Bytes) (file : Option (Except Exn Json))
    (config : GenesisConfig), loadGenesisConfig path file = .ok config →
      CreditsExact (create config.getAllocations) := by
  intro always
  let payer : Address := ⟨List.replicate 20 2,rfl⟩
  let payee : Address := ⟨List.replicate 20 1,rfl⟩
  have loaded : ((loadGenesisConfig (str "genesis.json")
      (some (.ok (genesisFile 18446744073709551615 1)))).toOption.any fun config =>
        ((create config.getAllocations).applyBlock (donationBlock (donation payer payee ⟨1,0⟩))).1 ∧
        (create config.getAllocations).accounts.lookup payer = some ⟨1,0⟩ ∧
        (create config.getAllocations).accounts.lookup payee = some ⟨18446744073709551615,0⟩) =
      true := by decide +kernel
  cases load : loadGenesisConfig (str "genesis.json")
    (some (.ok (genesisFile 18446744073709551615 1))) with
  | error e =>
    rw [load] at loaded
    cases loaded
  | ok config =>
    rw [load] at loaded
    obtain ⟨accepted,held,full⟩ := of_decide_eq_true loaded
    have credit := always _ _ config load [] (donationBlock (donation payer payee ⟨1,0⟩)) _ ⟨1,0⟩
      (donation payer payee ⟨1,0⟩) accepted (.here ⟨held,UInt64.le_refl _,rfl⟩) (by decide)
    have small := UInt64.toNat_lt (balanceOf (transfer (create config.getAllocations).accounts ⟨1,0⟩
      (donation payer payee ⟨1,0⟩)) payee)
    have before : balanceOf (create config.getAllocations).accounts payee = 18446744073709551615 := by
      rw [balanceOf,full]
      rfl
    have whole := credit.symm.trans_lt small
    change (balanceOf (create config.getAllocations).accounts payee).toNat + (1 : UInt64).toNat <
      2 ^ 64 at whole
    rw [before] at whole
    exact absurd whole (by decide)

end StateManager
end TitanCore
