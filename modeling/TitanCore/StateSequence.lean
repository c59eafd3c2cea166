import TitanCore.StateReplay

/-! A block as the sequence of its transactions: it is applied as they would be one by one, or
not at all, and the order of an accepted block does not show in the ledger. -/
namespace TitanCore.StateManager

/-- A block of its own for one transaction; `carrier` gives the other fields. -/
def single (carrier : Block) (tx : Transaction) : Block := { carrier with transactions := [tx] }

def oneByOne (carrier : Block) (state : StateManager) (transactions : List Transaction) : StateManager :=
  state.applyBlocks (transactions.map (single carrier))

section sequence
variable {carrier : Block} {state : StateManager} {accounts middle final : Accounts}
  {first second transactions : List Transaction}

theorem pays_single {tx : Transaction} :
    Pays accounts [tx] final ↔
      ∃ account, Payable accounts tx account ∧ final = transfer accounts account tx := by
  constructor
  · intro pays
    cases pays with
    | cons payable later =>
      cases later with
      | nil => exact ⟨_,payable,rfl⟩
  · rintro ⟨account,payable,rfl⟩
    exact .cons payable (.nil _)

theorem pays_append :
    Pays accounts (first ++ second) final ↔ ∃ middle, Pays accounts first middle ∧ Pays middle second final := by
  induction first generalizing accounts with
  | nil =>
    constructor
    · intro pays
      exact ⟨accounts,.nil accounts,pays⟩
    · rintro ⟨middle,before,later⟩
      cases before with
      | nil => exact later
  | cons tx rest ih =>
    constructor
    · intro pays
      cases pays with
      | cons payable later =>
        obtain ⟨middle,before,after⟩ := ih.mp later
        exact ⟨middle,.cons payable before,after⟩
    · rintro ⟨middle,before,after⟩
      cases before with
      | cons payable before => exact .cons payable (ih.mpr ⟨middle,before,after⟩)

theorem applyBlock_true {block : Block} :
    (state.applyBlock block).1 = true ↔ ∃ final, Pays state.accounts block.transactions final := by
  rcases applyBlock_cases state block with ⟨accepted,pays⟩ | ⟨refused,-,unpayable⟩
  · exact ⟨fun _ => ⟨_,pays⟩,fun _ => accepted⟩
  · rw [refused]
    constructor
    · intro accepted
      cases accepted
    · rintro ⟨final,pays⟩
      exact (unpayable final pays).elim

theorem applyBlock_pays {block : Block} (pays : Pays state.accounts block.transactions final) :
    (state.applyBlock block).1 = true ∧ (state.applyBlock block).2.accounts = final := by
  rcases applyBlock_cases state block with ⟨accepted,found⟩ | ⟨-,-,unpayable⟩
  · exact ⟨accepted,found.deterministic pays⟩
  · exact (unpayable final pays).elim

theorem applyBlock_single (carrier : Block) {tx : Transaction} {account : AccountState}
    (payable : Payable state.accounts tx account) :
    (state.applyBlock (single carrier tx)).1 = true ∧
      (state.applyBlock (single carrier tx)).2.accounts = transfer state.accounts account tx :=
  applyBlock_pays (pays_single.mpr ⟨_,payable,rfl⟩)

/-- Payable transactions leave the same ledger one by one. -/
theorem oneByOne_pays (pays : Pays state.accounts transactions final) :
    (oneByOne carrier state transactions).accounts = final := by
  induction transactions generalizing state with
  | nil =>
    cases pays with
    | nil => rfl
  | cons tx rest ih =>
    cases pays with
    | cons payable later =>
      have step := (applyBlock_single carrier payable).2
      exact ih (by rw [step]; exact later)

theorem payable_iff_valid :
    (∃ final, Pays state.accounts transactions final) ↔
      ∀ i (inside : i < transactions.length),
        ((oneByOne carrier state (transactions.take i)).validateTransaction transactions[i]).1 = true := by
  induction transactions generalizing state with
  | nil => exact ⟨fun _ i inside => absurd inside (Nat.not_lt_zero i),fun _ => ⟨_,.nil _⟩⟩
  | cons tx rest ih =>
    have later : ∀ {account}, Payable state.accounts tx account →
        ((∃ final, Pays (transfer state.accounts account tx) rest final) ↔
          ∀ i (inside : i < rest.length),
            ((oneByOne carrier state (tx :: rest.take i)).validateTransaction rest[i]).1 = true) := by
      intro account payable
      have step := (applyBlock_single carrier payable).2
      rw [← step]
      exact ih
    constructor
    · rintro ⟨final,pays⟩
      cases pays with
      | @cons _ _ _ _ account payable pays =>
        intro i inside
        cases i with
        | zero => exact (validateTransaction_iff state tx).mpr ⟨account,payable⟩
        | succ i => exact (later payable).mp ⟨final,pays⟩ i (Nat.lt_of_succ_lt_succ inside)
    · intro valid
      obtain ⟨account,payable⟩ :=
        (validateTransaction_iff state tx).mp (valid 0 (Nat.succ_pos rest.length))
      obtain ⟨final,pays⟩ := (later payable).mpr fun i inside => valid (i + 1) (Nat.succ_lt_succ inside)
      exact ⟨final,.cons payable pays⟩

end sequence

/-- A block is accepted when each of its transactions is valid after the ones before it. Then it
leaves the ledger they leave one by one, else the ledger as it was; and it may be split anywhere. -/
theorem applyBlock_sequence (state : StateManager) (block carrier : Block) :
    ((state.applyBlock block).1 = true ↔ ∀ i (inside : i < block.transactions.length),
      ((oneByOne carrier state (block.transactions.take i)).validateTransaction
        block.transactions[i]).1 = true) ∧
    (state.applyBlock block).2.accounts = (if (state.applyBlock block).1 then
      (oneByOne carrier state block.transactions).accounts else state.accounts) ∧
    ∀ front back : Block, front.transactions ++ back.transactions = block.transactions →
      (state.applyBlock block).1 = true → (state.applyBlock front).1 = true ∧
        ((state.applyBlock front).2.applyBlock back).1 = true ∧
        ((state.applyBlock front).2.applyBlock back).2.accounts =
          (state.applyBlock block).2.accounts := by
  refine ⟨applyBlock_true.trans payable_iff_valid,?_,fun front back parts accepted => ?_⟩
  · rcases applyBlock_cases state block with ⟨accepted,pays⟩ | ⟨refused,same,-⟩
    · rw [if_pos accepted,oneByOne_pays pays]
    · rw [if_neg (by rw [refused]; exact Bool.false_ne_true),same]
  · obtain ⟨final,pays⟩ := applyBlock_true.mp accepted
    rw [(applyBlock_pays pays).2]
    rw [← parts] at pays
    obtain ⟨middle,before,after⟩ := pays_append.mp pays
    obtain ⟨fronted,settled⟩ := applyBlock_pays before
    rw [← settled] at after
    exact ⟨fronted,applyBlock_pays after⟩

/-- Two payments of which the second spends what the first one brought, and their two parts. -/
theorem applyBlock_sequence_funded :
    let rich : Address := ⟨List.replicate 20 1,rfl⟩
    let poor : Address := ⟨List.replicate 20 2,rfl⟩
    let pay (sender recipient : Address) : Transaction :=
      ⟨sender,recipient,3,0,0,⟨List.replicate 33 0,rfl⟩,[],zeroHash⟩
    let block (transactions : List Transaction) : Block :=
      ⟨1,0,zeroHash,rich,⟨List.replicate 33 0,rfl⟩,transactions,[],zeroHash⟩
    let state := create ((∅ : AddressMap UInt64).insert rich 10)
    (state.applyBlock (block [pay rich poor,pay poor rich])).1 = true ∧
      ((state.applyBlock (block [pay rich poor])).2.applyBlock (block [pay poor rich])).2.accounts =
        (state.applyBlock (block [pay rich poor,pay poor rich])).2.accounts := by
  intro rich poor pay block state
  have accepted : (state.applyBlock (block [pay rich poor,pay poor rich])).1 = true := by decide +kernel
  obtain ⟨-,-,split⟩ := applyBlock_sequence state (block [pay rich poor,pay poor rich]) (block [])
  exact ⟨accepted,(split (block [pay rich poor]) (block [pay poor rich]) rfl accepted).2.2⟩

section order

/-- What a payment does to the account under an address: it debits the sender, credits the
recipient, and creates what it credits. -/
def touch (address : Address) (account : Option AccountState) (tx : Transaction) : Option AccountState :=
  if address = tx.sender ∨ address = tx.recipient then
    let old := account.getD default
    some ⟨old.balance - (if address = tx.sender then tx.amount else 0) +
        (if address = tx.recipient then tx.amount else 0),
      old.nonce + if address = tx.sender then 1 else 0⟩
  else account

theorem lookup_transfer {accounts : Accounts} {account : AccountState} {tx : Transaction}
    (payable : Payable accounts tx account) (address : Address) :
    (transfer accounts account tx).lookup address = touch address (accounts.lookup address) tx := by
  unfold transfer touch
  by_cases credited : address = tx.recipient
  · subst credited
    by_cases self : tx.recipient = tx.sender
    · rw [if_pos (.inr rfl),if_pos self,if_pos rfl,self,payable.held]
      simp
    · simp [self,Finmap.lookup_insert_of_ne _ self]
  · by_cases self : address = tx.sender
    · subst self
      simp [credited,Finmap.lookup_insert_of_ne _ credited,payable.held]
    · simp [credited,self,Finmap.lookup_insert_of_ne _ credited,Finmap.lookup_insert_of_ne _ self]

/-- Two payments do the same to an account in either order. -/
theorem touch_comm (address : Address) (account : Option AccountState) (a b : Transaction) :
    touch address (touch address account a) b = touch address (touch address account b) a := by
  unfold touch
  by_cases inA : address = a.sender ∨ address = a.recipient
  · by_cases inB : address = b.sender ∨ address = b.recipient
    · simp only [if_pos inA,if_pos inB,Option.getD_some,Option.some.injEq,AccountState.mk.injEq]
      constructor <;> grind
    · simp only [if_pos inA,if_neg inB]
  · simp only [if_neg inA]

theorem Pays.lookup {accounts final : Accounts} {transactions : List Transaction}
    (pays : Pays accounts transactions final) (address : Address) :
    final.lookup address = transactions.foldl (touch address) (accounts.lookup address) := by
  induction pays with
  | nil => rfl
  | cons payable _ ih => rw [ih,lookup_transfer payable,List.foldl_cons]

theorem Pays.perm {accounts a b : Accounts} {first second : List Transaction}
    (one : Pays accounts first a) (other : Pays accounts second b) (same : first.Perm second) : a = b := by
  apply Finmap.ext_lookup
  intro address
  rw [one.lookup,other.lookup]
  exact same.foldl_eq' (fun x _ y _ account => touch_comm address account x y) _

/-- Two accepted blocks of the same transactions leave the same ledger, in whatever order they
list them. -/
theorem order_independent (state : StateManager) (first second : Block)
    (same : first.transactions.Perm second.transactions) (accepted : (state.applyBlock first).1 = true)
    (accepted' : (state.applyBlock second).1 = true) :
    (state.applyBlock first).2.accounts = (state.applyBlock second).2.accounts := by
  obtain ⟨a,pays⟩ := applyBlock_true.mp accepted
  obtain ⟨b,pays'⟩ := applyBlock_true.mp accepted'
  rw [(applyBlock_pays pays).2,(applyBlock_pays pays').2]
  exact pays.perm pays' same

/-- A payment to a new account and one to oneself, in both orders. -/
theorem order_independent_self :
    let rich : Address := ⟨List.replicate 20 1,rfl⟩
    let other : Address := ⟨List.replicate 20 2,rfl⟩
    let fresh : Address := ⟨List.replicate 20 3,rfl⟩
    let pay (sender recipient : Address) : Transaction :=
      ⟨sender,recipient,3,0,0,⟨List.replicate 33 0,rfl⟩,[],zeroHash⟩
    let block (transactions : List Transaction) : Block :=
      ⟨1,0,zeroHash,rich,⟨List.replicate 33 0,rfl⟩,transactions,[],zeroHash⟩
    let state := create (((∅ : AddressMap UInt64).insert rich 10).insert other 5)
    (state.applyBlock (block [pay rich fresh,pay other other])).2.accounts =
        (state.applyBlock (block [pay other other,pay rich fresh])).2.accounts ∧
      (state.applyBlock (block [pay rich fresh,pay other other])).2.getBalance fresh = 3 := by
  intro rich other fresh pay block state
  refine ⟨order_independent state _ _ (.swap _ _ _) ?_ ?_,?_⟩ <;> decide +kernel

end order
end TitanCore.StateManager
