import Mathlib.Data.List.Induction
import TitanCore.StorageRefinement

/-! The index from hashes to blocks. Its entries name a block by its number only, so one that is
older than the last block of that number leads to another block. -/
namespace TitanCore

def lastWhere {α : Type} (p : α → Bool) (l : List α) : Option α := (l.filter p).getLast?

def lastAt (blocks : List Block) (index : UInt64) : Option Block :=
  lastWhere (fun block => block.index = index) blocks

def lastWith (blocks : List Block) (hash : Hash) : Option Block :=
  lastWhere (fun block => block.hash = hash) blocks

/-- What a lookup by hash promises after these blocks were saved. -/
structure LooksUp (ext : Externals) (storage : Storage) (blocks : List Block) (hash : Hash) : Prop where
  found : ∀ block, storage.loadBlockByHash ext hash = .ok (some block) → block.hash = hash
  complete : ∀ index block, lastAt blocks index = some block → block.hash = hash →
    ∃ block, storage.loadBlockByHash ext hash = .ok (some block)

section last
variable {α : Type} {p : α → Bool} {l : List α} {a : α}

theorem lastWhere_concat (p : α → Bool) (l : List α) (a : α) :
    lastWhere p (l ++ [a]) = if p a = true then some a else lastWhere p l := by
  unfold lastWhere
  rw [List.filter_append]
  by_cases holds : p a = true
  · rw [if_pos holds,List.filter_cons_of_pos holds]
    simp
  · rw [if_neg holds,List.filter_cons_of_neg holds]
    simp

theorem lastWhere_mem (last : lastWhere p l = some a) : a ∈ l ∧ p a = true :=
  List.mem_filter.mp (List.mem_of_getLast? last)

theorem lastWhere_of_mem (member : a ∈ l) (holds : p a = true) : ∃ last, lastWhere p l = some last := by
  cases last : lastWhere p l with
  | some found => exact ⟨found,rfl⟩
  | none =>
    have inside := List.mem_filter.mpr ⟨member,holds⟩
    rw [List.getLast?_eq_none_iff.mp last] at inside
    cases inside

end last

theorem lastAt_concat (blocks : List Block) (block : Block) (index : UInt64) :
    lastAt (blocks ++ [block]) index =
      if block.index = index then some block else lastAt blocks index := by
  simp only [lastAt,lastWhere_concat,decide_eq_true_eq]

theorem lastWith_concat (blocks : List Block) (block : Block) (hash : Hash) :
    lastWith (blocks ++ [block]) hash =
      if block.hash = hash then some block else lastWith blocks hash := by
  simp only [lastWith,lastWhere_concat,decide_eq_true_eq]

/-- The last block of an index that has a hash is the last one with it, if that has the index. -/
theorem last_unique {blocks : List Block} {hash : Hash} {block newest : Block}
    (last : lastWith blocks hash = some block) (at_index : lastAt blocks block.index = some newest)
    (same : newest.hash = hash) : newest = block := by
  induction blocks using List.reverseRecOn with
  | nil => cases last
  | append_singleton blocks other ih =>
    rw [lastWith_concat] at last
    rw [lastAt_concat] at at_index
    by_cases with_hash : other.hash = hash
    · rw [if_pos with_hash,Option.some.injEq] at last
      rw [if_pos (by rw [last]),Option.some.injEq] at at_index
      rw [← at_index,last]
    · rw [if_neg with_hash] at last
      by_cases with_index : other.index = block.index
      · rw [if_pos with_index,Option.some.injEq] at at_index
        rw [at_index] at with_hash
        exact absurd same with_hash
      · rw [if_neg with_index] at at_index
        exact ih last at_index

namespace Storage

/-- No write fails. -/
def saveBlocks (ext : Externals) (blocks : List Block) : Except Exn Storage :=
  blocks.foldlM (fun storage block => storage.saveBlock ext block none) empty

/-- What both kinds of entries hold after a run of writes. -/
structure Indexed (ext : Externals) (storage : Storage) (blocks : List Block) : Prop where
  byIndex : ∀ index, storage.db.lookup (blockKey index) =
    (lastAt blocks index).map fun block => ext.dump block.toJson
  byHash : ∀ hash, storage.db.lookup (hashKey hash) =
    (lastWith blocks hash).map fun block => decimal block.index.toNat

section
variable {ext : Externals} {storage : Storage} {blocks : List Block}

theorem Indexed.saveBlock (indexed : Indexed ext storage blocks) (block : Block) :
    ∃ saved, storage.saveBlock ext block none = .ok saved ∧ Indexed ext saved (blocks ++ [block]) := by
  refine ⟨_,rfl,fun index => ?_,fun hash => ?_⟩
  · rw [lookup_put_head (blockKey_head _) (hashKey_head _) (by decide),lookup_put,lastAt_concat]
    by_cases same : block.index = index
    · rw [if_pos same,if_pos (by rw [same])]
      rfl
    · rw [if_neg same,if_neg (blockKey_injective.ne (Ne.symm same)),indexed.byIndex]
  · rw [lookup_put,lastWith_concat]
    by_cases same : block.hash = hash
    · rw [if_pos same,if_pos (by rw [same])]
      rfl
    · rw [if_neg same,if_neg (hashKey_injective.ne (Ne.symm same)),
        lookup_put_head (hashKey_head _) (blockKey_head _) (by decide),indexed.byHash]

theorem saveBlocks_indexed (ext : Externals) (blocks : List Block) :
    ∃ storage, saveBlocks ext blocks = .ok storage ∧ Indexed ext storage blocks := by
  induction blocks using List.reverseRecOn with
  | nil => exact ⟨empty,rfl,fun _ => rfl,fun _ => rfl⟩
  | append_singleton blocks block ih =>
    obtain ⟨storage,done,indexed⟩ := ih
    obtain ⟨saved,written,indexed⟩ := indexed.saveBlock block
    refine ⟨saved,?_,indexed⟩
    rw [saveBlocks] at done ⊢
    rw [List.foldlM_append,done,ok_bind,List.foldlM_cons,written,ok_bind]
    rfl

theorem Indexed.loadBlock (indexed : Indexed ext storage blocks) (parses : ext.ParseUndoesDump)
    (index : UInt64) : storage.loadBlock ext index = .ok (lastAt blocks index) := by
  have record := indexed.byIndex index
  cases last : lastAt blocks index with
  | none =>
    rw [last] at record
    exact loadBlock_absent record
  | some block =>
    rw [last] at record
    exact loadBlock_record parses record

/-- The lookup as a whole: through the last block with the hash to the last one of its index. -/
theorem Indexed.loadBlockByHash (indexed : Indexed ext storage blocks) (parses : ext.ParseUndoesDump)
    (hash : Hash) : storage.loadBlockByHash ext hash =
      .ok ((lastWith blocks hash).bind fun block => lastAt blocks block.index) := by
  unfold Storage.loadBlockByHash
  rw [indexed.byHash]
  cases lastWith blocks hash with
  | none => rfl
  | some block =>
    simp only [Option.map_some,stoull_decimal,Option.bind_some]
    exact indexed.loadBlock parses block.index

end
end Storage

/-- After any writes a lookup by hash is right exactly when no later block took the index of the
last one with that hash. -/
theorem looksUp_iff {ext : Externals} (parses : ext.ParseUndoesDump) (blocks : List Block) (hash : Hash) :
    ∃ storage, Storage.saveBlocks ext blocks = .ok storage ∧
      (LooksUp ext storage blocks hash ↔
        ∀ block, lastWith blocks hash = some block → lastAt blocks block.index = some block) := by
  obtain ⟨storage,done,indexed⟩ := Storage.saveBlocks_indexed ext blocks
  have lookup := indexed.loadBlockByHash parses hash
  refine ⟨storage,done,?_⟩
  constructor
  · intro looksUp block last
    obtain ⟨newest,at_index⟩ : ∃ newest, lastAt blocks block.index = some newest :=
      lastWhere_of_mem (lastWhere_mem last).1 (decide_eq_true rfl)
    rw [last,Option.bind_some,at_index] at lookup
    rw [at_index,last_unique last at_index (looksUp.found newest lookup)]
  · intro current
    constructor
    case found =>
      intro block found
      cases last : lastWith blocks hash with
      | none =>
        rw [lookup,last] at found
        cases found
      | some named =>
        rw [lookup,last,Option.bind_some,current named last] at found
        cases found
        exact of_decide_eq_true (lastWhere_mem last).2
    case complete =>
      rintro index block at_index rfl
      obtain ⟨named,last⟩ : ∃ named, lastWith blocks block.hash = some named :=
        lastWhere_of_mem (lastWhere_mem at_index).1 (decide_eq_true rfl)
      exact ⟨named,by rw [lookup,last,Option.bind_some,current named last]⟩

open Reference in
/-- Two blocks with different indices: both are found. -/
theorem looksUp_iff_chain : ∃ storage, Storage.saveBlocks libraries [first,second] = .ok storage ∧
    LooksUp libraries storage [first,second] first.hash := by
  obtain ⟨storage,done,exact⟩ := looksUp_iff libraries_parse [first,second] first.hash
  refine ⟨storage,done,exact.mpr fun block last => ?_⟩
  have named : lastWith [first,second] first.hash = some first := by decide +kernel
  rw [named,Option.some.injEq] at last
  rw [← last]
  decide +kernel

open Reference in
/-- Another block is saved under the index of the first one, whose hash then leads to it. -/
theorem looksUp_overwritten : ¬ ∀ (ext : Externals), ext.ParseUndoesDump →
    ∀ blocks hash storage, Storage.saveBlocks ext blocks = .ok storage →
      LooksUp ext storage blocks hash := by
  intro always
  obtain ⟨storage,done,indexed⟩ := Storage.saveBlocks_indexed libraries [first,paying]
  have lookup := indexed.loadBlockByHash libraries_parse first.hash
  have other : (lastWith [first,paying] first.hash).bind
      (fun block => lastAt [first,paying] block.index) = some paying := by decide +kernel
  rw [other] at lookup
  have same := (always libraries libraries_parse [first,paying] first.hash storage done).found paying lookup
  exact absurd same (by decide +kernel)

end TitanCore
