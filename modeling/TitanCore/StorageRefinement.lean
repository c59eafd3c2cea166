import TitanCore.Reference
import TitanCore.Storage

/-! One flat key space as three typed stores. Whatever is written in whatever order, each kind
of record reads back as if it had a map of its own. -/
namespace TitanCore

theorem hexDigit_less {m n : Nat} (small : m < 16) (small' : n < 16) :
    ((hexDigit m).toNat < (hexDigit n).toNat ↔ m < n) ∧ (hexDigit m = hexDigit n ↔ m = n) := by
  have table : ∀ i j : Fin 16, ((hexDigit i.val).toNat < (hexDigit j.val).toNat ↔ i.val < j.val) ∧
    (hexDigit i.val = hexDigit j.val ↔ i.val = j.val) := by decide +kernel
  exact table ⟨m,small⟩ ⟨n,small'⟩

theorem less_toHex (a b : Bytes) : Bytes.less (toHex a) (toHex b) = true ↔ Bytes.less a b = true := by
  induction a generalizing b with
  | nil =>
    cases b with
    | nil => rfl
    | cons y b => simp [Bytes.less]
  | cons x a ih =>
    cases b with
    | nil => simp [Bytes.less]
    | cons y b =>
      have bound := x.toNat_lt
      have bound' := y.toNat_lt
      obtain ⟨high,high_eq⟩ := hexDigit_less (m := x.toNat / 16) (n := y.toNat / 16)
        (by omega) (by omega)
      obtain ⟨low,low_eq⟩ := hexDigit_less (m := x.toNat % 16) (n := y.toNat % 16)
        (by omega) (by omega)
      rw [toHex_cons,toHex_cons,less_cons,less_cons,less_cons,ih,high,high_eq,low,low_eq,
        ← UInt8.toNat_inj]
      constructor
      · rintro (h | ⟨h,h' | ⟨h',rest⟩⟩)
        · exact .inl (by omega)
        · exact .inl (by omega)
        · exact .inr ⟨by omega,rest⟩
      · rintro (h | ⟨h,rest⟩)
        · by_cases same : x.toNat / 16 = y.toNat / 16
          · exact .inr ⟨same,.inl (by omega)⟩
          · exact .inl (by omega)
        · exact .inr ⟨by omega,.inr ⟨by omega,rest⟩⟩

inductive Write where
  | saveBlock (block : Block)
  | saveAccountState (addr : Address) (acct : AccountState)
  | saveChainHeight (height : UInt64)
  | clear

namespace Storage

def perform (ext : Externals) (storage : Storage) : Write → Except Exn Storage
  | .saveBlock block => storage.saveBlock ext block none
  | .saveAccountState addr acct => storage.saveAccountState ext addr acct none
  | .saveChainHeight height => storage.saveChainHeight height none
  | .clear => .ok storage.clear

def performs (ext : Externals) (writes : List Write) : Except Exn Storage :=
  writes.foldlM (perform ext) empty

end Storage

/-- What a store is for: the last block of each index, the last state of each account and the
last height. -/
structure Records where
  blocks : UInt64 → Option Block
  accounts : Address → Option AccountState
  height : Option UInt64

namespace Records

def empty : Records := ⟨fun _ => none,fun _ => none,none⟩

def write (records : Records) : Write → Records
  | .saveBlock block =>
    { records with blocks := Function.update records.blocks block.index (some block) }
  | .saveAccountState addr acct =>
    { records with accounts := Function.update records.accounts addr (some acct) }
  | .saveChainHeight height => { records with height := some height }
  | .clear => empty

end Records

/-- The keys hold what the records say, and no other key looks like an account's. -/
structure Refines (ext : Externals) (storage : Storage) (records : Records) : Prop where
  blocks : ∀ index, storage.db.lookup (Storage.blockKey index) =
    (records.blocks index).map fun block => ext.dump block.toJson
  accounts : ∀ addr, storage.db.lookup (Storage.acctKey addr) =
    (records.accounts addr).map fun acct => ext.dump (Storage.accountJson acct)
  height : storage.db.lookup Storage.heightKey =
    records.height.map fun height => decimal height.toNat
  kinds : ∀ key value, storage.db.lookup key = some value → key.take 2 = str "a:" →
    ∃ addr, key = Storage.acctKey addr

namespace Storage

theorem lookup_put (storage : Storage) (key value other : Bytes) :
    (storage.put key value).db.lookup other =
      if other = key then some value else storage.db.lookup other := by
  by_cases same : other = key
  · rw [if_pos same,same]
    exact Finmap.lookup_insert _
  · rw [if_neg same,lookup_put_ne storage value same]

theorem canonical_accountJson (acct : AccountState) : (accountJson acct).canonical = true := by
  rfl

theorem accountFromJson_accountJson (acct : AccountState) :
    accountFromJson (accountJson acct) = .ok acct := rfl

theorem loadAccountState_record {ext : Externals} {storage : Storage} (parses : ext.ParseUndoesDump)
    {addr : Address} {acct : AccountState}
    (record : storage.db.lookup (acctKey addr) = some (ext.dump (accountJson acct))) :
    storage.loadAccountState ext addr = .ok (some acct) := by
  simp only [loadAccountState,record,ext.parseJson_dump parses (canonical_accountJson acct),ok_bind,
    accountFromJson_accountJson]
  rfl

/-- An account that reads back is the one on record. -/
theorem Tidy.record {ext : Externals} {storage : Storage} (tidy : storage.Tidy ext)
    (parses : ext.ParseUndoesDump) {addr : Address} {acct : AccountState}
    (loaded : storage.loadAccountState ext addr = .ok (some acct)) :
    storage.db.lookup (acctKey addr) = some (ext.dump (accountJson acct)) := by
  cases held : storage.db.lookup (acctKey addr) with
  | none =>
    rw [loadAccountState,held] at loaded
    cases loaded
  | some text =>
    obtain ⟨found,rfl⟩ := tidy addr text held
    rw [loadAccountState_record parses held] at loaded
    obtain rfl := Option.some.inj (Except.ok.inj loaded)
    rfl

theorem accountJson_injective (ext : Externals) {a b : AccountState}
    (same : ext.dump (accountJson a) = ext.dump (accountJson b)) : a = b := by
  have values := ext.dump_injective (canonical_accountJson a) (canonical_accountJson b) same
  have decoded := congrArg accountFromJson values
  rw [accountFromJson_accountJson,accountFromJson_accountJson] at decoded
  exact Except.ok.inj decoded

theorem addressOf_fromHex (addr : Address) : addressOf (fromHex ((acctKey addr).drop 2)) = addr := by
  have bytes : fromHex ((acctKey addr).drop 2) = addr.val := fromHex_toHex addr.val
  rw [bytes,addressOf,dif_pos (by rw [addr.2])]
  exact Subtype.ext (List.take_of_length_le (by rw [addr.2]))

end Storage

namespace Refines
variable {ext : Externals} {storage : Storage} {records : Records}

theorem empty (ext : Externals) : Refines ext Storage.empty Records.empty :=
  ⟨fun _ => rfl,fun _ => rfl,rfl,fun _ _ held => by cases held⟩

/-- A key of another kind than accounts adds no key that looks like an account's. -/
theorem kinds_put (refines : Refines ext storage records) {key : Bytes} (value : Bytes)
    (other : key.head? ≠ some 97) :
    ∀ k v, (storage.put key value).db.lookup k = some v → k.take 2 = str "a:" →
      ∃ addr, k = Storage.acctKey addr := by
  intro k v held start
  rw [Storage.lookup_put] at held
  split at held
  · next same =>
    have head : k.head? = (k.take 2).head? := by rw [List.head?_take]; rfl
    rw [start] at head
    exact absurd (same ▸ head) other
  · exact refines.kinds k v held start

theorem saveBlock (refines : Refines ext storage records) (block : Block) :
    ∃ saved, storage.saveBlock ext block none = .ok saved ∧
      Refines ext saved (records.write (.saveBlock block)) := by
  refine ⟨_,rfl,?_⟩
  have first : ∀ k v, (storage.put (Storage.blockKey block.index) (ext.dump block.toJson)).db.lookup k =
      some v → k.take 2 = str "a:" → ∃ addr, k = Storage.acctKey addr :=
    refines.kinds_put _ (by rw [Storage.blockKey_head]; decide)
  constructor
  · intro index
    rw [Storage.lookup_put_head (Storage.blockKey_head _) (Storage.hashKey_head _) (by decide),
      Storage.lookup_put]
    by_cases same : index = block.index
    · subst same
      simp [Records.write]
    · rw [if_neg (Storage.blockKey_injective.ne same),refines.blocks]
      simp [Records.write,Function.update_of_ne same]
  · intro addr
    rw [Storage.lookup_put_head (Storage.acctKey_head _) (Storage.hashKey_head _) (by decide),
      Storage.lookup_put_head (Storage.acctKey_head _) (Storage.blockKey_head _) (by decide)]
    exact refines.accounts addr
  · rw [Storage.lookup_put_head Storage.heightKey_head (Storage.hashKey_head _) (by decide),
      Storage.lookup_put_head Storage.heightKey_head (Storage.blockKey_head _) (by decide)]
    exact refines.height
  · intro k v held start
    rw [Storage.lookup_put] at held
    split at held
    · next same =>
      subst same
      exact absurd (congrArg List.head? start) (by
        rw [List.head?_take,Storage.hashKey_head]
        decide)
    · exact first k v held start

theorem saveAccountState (refines : Refines ext storage records) (addr : Address)
    (acct : AccountState) : ∃ saved, storage.saveAccountState ext addr acct none = .ok saved ∧
      Refines ext saved (records.write (.saveAccountState addr acct)) := by
  refine ⟨_,rfl,?_⟩
  constructor
  · intro index
    rw [Storage.lookup_put_head (Storage.blockKey_head _) (Storage.acctKey_head _) (by decide)]
    exact refines.blocks index
  · intro other
    rw [Storage.lookup_put]
    by_cases same : other = addr
    · subst same
      simp [Records.write]
    · rw [if_neg (Storage.acctKey_injective.ne same),refines.accounts]
      simp [Records.write,Function.update_of_ne same]
  · rw [Storage.lookup_put_head Storage.heightKey_head (Storage.acctKey_head _) (by decide)]
    exact refines.height
  · intro k v held start
    rw [Storage.lookup_put] at held
    split at held
    · next same => exact ⟨addr,same⟩
    · exact refines.kinds k v held start

theorem saveChainHeight (refines : Refines ext storage records) (height : UInt64) :
    ∃ saved, storage.saveChainHeight height none = .ok saved ∧
      Refines ext saved (records.write (.saveChainHeight height)) := by
  refine ⟨_,rfl,?_⟩
  constructor
  · intro index
    rw [Storage.lookup_put_head (Storage.blockKey_head _) Storage.heightKey_head (by decide)]
    exact refines.blocks index
  · intro addr
    rw [Storage.lookup_put_head (Storage.acctKey_head _) Storage.heightKey_head (by decide)]
    exact refines.accounts addr
  · rw [Storage.lookup_put,if_pos rfl]
    rfl
  · exact refines.kinds_put _ (by rw [Storage.heightKey_head]; decide)

/-- Every write does to the keys what it does to the records. -/
theorem perform (refines : Refines ext storage records) (write : Write) :
    ∃ saved, storage.perform ext write = .ok saved ∧ Refines ext saved (records.write write) := by
  cases write with
  | saveBlock block => exact refines.saveBlock block
  | saveAccountState addr acct => exact refines.saveAccountState addr acct
  | saveChainHeight height => exact refines.saveChainHeight height
  | clear => exact ⟨_,rfl,empty ext⟩

theorem foldlM (refines : Refines ext storage records) (writes : List Write) :
    ∃ saved, writes.foldlM (Storage.perform ext) storage = .ok saved ∧
      Refines ext saved (writes.foldl Records.write records) := by
  induction writes generalizing storage records with
  | nil => exact ⟨storage,rfl,refines⟩
  | cons write writes ih =>
    obtain ⟨next,done,refined⟩ := refines.perform write
    obtain ⟨saved,rest,final⟩ := ih refined
    refine ⟨saved,?_,final⟩
    rw [List.foldlM_cons,done,ok_bind,rest]

section reads
variable (refines : Refines ext storage records)
include refines

theorem loadBlock (parses : ext.ParseUndoesDump) (index : UInt64) :
    storage.loadBlock ext index = .ok (records.blocks index) := by
  have record := refines.blocks index
  cases held : records.blocks index with
  | none =>
    rw [held] at record
    exact Storage.loadBlock_absent record
  | some block =>
    rw [held] at record
    exact Storage.loadBlock_record parses record

theorem loadAccountState (parses : ext.ParseUndoesDump) (addr : Address) :
    storage.loadAccountState ext addr = .ok (records.accounts addr) := by
  have record := refines.accounts addr
  cases held : records.accounts addr with
  | none =>
    rw [held] at record
    simp only [Storage.loadAccountState,record,Option.map_none]
  | some acct =>
    rw [held] at record
    exact Storage.loadAccountState_record parses record

theorem loadChainHeight : storage.loadChainHeight = .ok (records.height.getD 0) := by
  have record := refines.height
  cases held : records.height with
  | none =>
    rw [held] at record
    exact Storage.loadChainHeight_absent record
  | some height =>
    rw [held] at record
    exact Storage.loadChainHeight_record record

/-- The entries the scan visits: account records in the order of their keys, then keys past them. -/
theorem scan_entries : (storage.seek (str "a:")).Pairwise (fun x y => Bytes.le x.1 y.1 ∧ x.1 ≠ y.1) ∧
    (∀ entry ∈ storage.seek (str "a:"), Bytes.le (str "a:") entry.1 ∧
      (entry.1.take 2 = str "a:" → ∃ addr acct,
        entry = (Storage.acctKey addr,ext.dump (Storage.accountJson acct)))) ∧
    ∀ addr acct, (Storage.acctKey addr,ext.dump (Storage.accountJson acct)) ∈ storage.seek (str "a:") ↔
      records.accounts addr = some acct := by
  refine ⟨FiniteMap.seek_pairwise Bytes.le storage.db _,?_,fun addr acct => ?_⟩
  · rintro ⟨key,value⟩ member
    obtain ⟨held,from_start⟩ := (FiniteMap.mem_seek Bytes.le).mp member
    refine ⟨from_start,fun start => ?_⟩
    obtain ⟨addr,rfl⟩ := refines.kinds key value held start
    rw [refines.accounts,Option.map_eq_some_iff] at held
    obtain ⟨acct,-,rfl⟩ := held
    exact ⟨addr,acct,rfl⟩
  · have from_start : Bytes.le (str "a:") (Storage.acctKey addr) := Bytes.le_append _ _
    rw [Storage.seek,FiniteMap.mem_seek,refines.accounts,Option.map_eq_some_iff]
    constructor
    · rintro ⟨⟨other,held,same⟩,-⟩
      rw [held,Storage.accountJson_injective ext same]
    · intro held
      exact ⟨⟨acct,held,rfl⟩,from_start⟩

end reads
end Refines

/-- The loop reads off the account records in front, whatever follows them. -/
theorem loadAccounts_listed {ext : Externals} (parses : ext.ParseUndoesDump)
    {entries : List (Bytes × Bytes)}
    (sorted : entries.Pairwise fun x y => Bytes.le x.1 y.1 ∧ x.1 ≠ y.1)
    (typed : ∀ entry ∈ entries, Bytes.le (str "a:") entry.1 ∧ (entry.1.take 2 = str "a:" →
      ∃ addr acct, entry = (Storage.acctKey addr,ext.dump (Storage.accountJson acct)))) :
    ∃ accounts, Storage.loadAccounts ext entries = .ok accounts ∧
      accounts.Pairwise (fun x y => Bytes.less x.1.val y.1.val = true) ∧
      ∀ addr acct, (addr,acct) ∈ accounts ↔
        (Storage.acctKey addr,ext.dump (Storage.accountJson acct)) ∈ entries := by
  induction entries with
  | nil => exact ⟨[],rfl,List.Pairwise.nil,fun _ _ => by simp⟩
  | cons entry rest ih =>
    obtain ⟨head,tail⟩ := List.pairwise_cons.mp sorted
    obtain ⟨from_start,shape⟩ := typed entry (by simp)
    by_cases start : entry.1.take 2 = str "a:"
    · obtain ⟨addr,acct,rfl⟩ := shape start
      obtain ⟨accounts,loaded,ordered,listed⟩ := ih tail fun e member => typed e (by simp [member])
      refine ⟨(addr,acct) :: accounts,?_,List.pairwise_cons.mpr ⟨?_,ordered⟩,?_⟩
      · rw [Storage.loadAccounts,if_neg (not_not.mpr start)]
        simp only [Storage.addressOf_fromHex,ext.parseJson_dump parses (Storage.canonical_accountJson acct),
          Storage.accountFromJson_accountJson,loaded,ok_bind]
        rfl
      · rintro ⟨other,state⟩ member
        obtain ⟨below,apart⟩ := head _ ((listed other state).mp member)
        have less := (Bytes.le_iff.mp below).resolve_right apart
        exact (less_toHex _ _).mp ((less_append_left (str "a:") _ _).mp less)
      · intro other state
        rw [List.mem_cons,List.mem_cons,listed]
        apply or_congr_left
        rw [Prod.mk.injEq,Prod.mk.injEq]
        constructor
        · rintro ⟨rfl,rfl⟩
          exact ⟨rfl,rfl⟩
        · rintro ⟨same,same'⟩
          exact ⟨Storage.acctKey_injective same,Storage.accountJson_injective ext same'⟩
    · refine ⟨[],by rw [Storage.loadAccounts,if_pos start],List.Pairwise.nil,fun addr acct => ?_⟩
      have after : ∀ e ∈ entry :: rest, e.1 ≠ Storage.acctKey addr := by
        intro e member same
        have below : Bytes.le entry.1 (str "a:" ++ toHex addr.val) := by
          rcases List.mem_cons.mp member with rfl | member
          · exact Bytes.le_iff.mpr (.inr same)
          · have between := (head e member).1
            rw [same] at between
            exact between
        exact start (List.prefix_iff_eq_take.mp (Bytes.prefix_of_between from_start below)).symm
      simp only [List.not_mem_nil,false_iff]
      exact fun member => after _ member rfl

/-- After any sequence of writes and resets every read answers from the records. -/
theorem storage_refines {ext : Externals} (parses : ext.ParseUndoesDump) (writes : List Write) :
    ∃ storage, Storage.performs ext writes = .ok storage ∧
      let records := writes.foldl Records.write Records.empty
      (∀ index, storage.loadBlock ext index = .ok (records.blocks index)) ∧
      (∀ addr, storage.loadAccountState ext addr = .ok (records.accounts addr)) ∧
      storage.loadChainHeight = .ok (records.height.getD 0) ∧
      ∃ accounts, storage.loadAllAccounts ext = .ok accounts ∧
        accounts.Pairwise (fun x y => Bytes.less x.1.val y.1.val = true) ∧
        ∀ addr acct, (addr,acct) ∈ accounts ↔ records.accounts addr = some acct := by
  obtain ⟨storage,done,refines⟩ := (Refines.empty ext).foldlM writes
  obtain ⟨sorted,typed,held⟩ := refines.scan_entries
  obtain ⟨accounts,loaded,ordered,listed⟩ := loadAccounts_listed parses sorted typed
  refine ⟨storage,done,refines.loadBlock parses,refines.loadAccountState parses,
    refines.loadChainHeight,accounts,loaded,ordered,fun addr acct => ?_⟩
  rw [listed,held]

open Reference in
/-- Two blocks of one index, an account written twice and a reset in between. -/
theorem storage_refines_rewritten :
    let writes := [Write.saveBlock first,.clear,.saveAccountState observerAddress ⟨1,0⟩,
      .saveBlock first,.saveBlock paying,.saveAccountState observerAddress ⟨2,1⟩,.saveChainHeight 2]
    libraries.ParseUndoesDump ∧ ∃ storage, Storage.performs libraries writes = .ok storage ∧
      storage.loadBlock libraries 1 = .ok (some paying) ∧
      storage.loadAccountState libraries observerAddress = .ok (some ⟨2,1⟩) ∧
      storage.loadAccountState libraries validatorAddress = .ok none ∧
      storage.loadChainHeight = .ok 2 := by
  intro writes
  refine ⟨libraries_parse,?_⟩
  obtain ⟨storage,done,blocks,accounts,height,-⟩ := storage_refines libraries_parse writes
  have apart : validatorAddress ≠ observerAddress := by decide +kernel
  refine ⟨storage,done,?_,?_,?_,height⟩
  · rw [blocks]
    simp [writes,Records.write,paying,first,block]
  · rw [accounts]
    simp [writes,Records.write]
  · rw [accounts]
    simp [writes,Records.write,Records.empty,apart]

end TitanCore
