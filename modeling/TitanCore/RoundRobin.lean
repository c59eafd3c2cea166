import Mathlib.Data.List.Rotate

/-! Members of a list that take turns. -/
namespace TitanCore
namespace RoundRobin

variable {α : Type} {members : List α} (nonempty : 0 < members.length)

def turn (k : Nat) : α := members.get ⟨k % members.length,Nat.mod_lt _ nonempty⟩

/-- In a round each has one turn, whoever begins. -/
theorem round (start : Nat) : (List.range' start members.length).map (turn nonempty) = members.rotate start := by
  refine List.ext_getElem (by simp) fun k _ _ => ?_
  rw [List.getElem_map,List.getElem_range',List.getElem_rotate,turn,List.get_eq_getElem]
  simp only [Nat.one_mul,Nat.add_comm]

/-- Nobody waits longer than a round. -/
theorem exists_turn {member : α} (there : member ∈ members) (last : Nat) :
    ∃ k, last < k ∧ k ≤ last + members.length ∧ turn nonempty k = member := by
  have rotated : member ∈ members.rotate (last + 1) := List.mem_rotate.mpr there
  rw [← round nonempty,List.mem_map] at rotated
  obtain ⟨k,inside,due⟩ := rotated
  rw [List.mem_range'_1] at inside
  exact ⟨k,by omega,by omega,due⟩

/-- Of any stretch of turns each has its share, rounded down or up. -/
theorem count_turns [BEq α] [LawfulBEq α] (distinct : members.Nodup) {member : α} (there : member ∈ members)
    (start count : Nat) :
    count / members.length ≤ ((List.range' start count).map (turn nonempty)).count member ∧
    ((List.range' start count).map (turn nonempty)).count member ≤ count / members.length + 1 := by
  induction count using Nat.strong_induction_on generalizing start with
  | _ count ih =>
    have once (k : Nat) : (members.rotate k).count member = 1 :=
      List.count_eq_one_of_mem (List.nodup_rotate.mpr distinct) (List.mem_rotate.mpr there)
    by_cases short : count < members.length
    · -- less than a round
      rw [Nat.div_eq_of_lt short]
      refine ⟨Nat.zero_le _,?_⟩
      have part : ((List.range' start count).map (turn nonempty)).Sublist (members.rotate start) := by
        rw [← round nonempty]
        refine List.Sublist.map _ ?_
        rw [← Nat.add_sub_of_le short.le,← List.range'_append_1]
        exact List.sublist_append_left _ _
      exact (part.count_le member).trans (once start).le
    · obtain ⟨rest,rfl⟩ := Nat.exists_eq_add_of_le (Nat.not_lt.mp short)
      have later := ih rest (by omega) (start + members.length)
      rw [Nat.add_div_left _ nonempty,← List.range'_append_1,List.map_append,List.count_append,round nonempty,once]
      omega

/-- In so many rounds each has a turn at least as often. -/
theorem rounds_le_count [BEq α] [LawfulBEq α] {member : α} (there : member ∈ members) (start rounds : Nat)
    {count : Nat} (enough : rounds * members.length ≤ count) :
    rounds ≤ ((List.range' start count).map (turn nonempty)).count member := by
  induction rounds generalizing start count with
  | zero => exact Nat.zero_le _
  | succ rounds ih =>
    rw [Nat.succ_mul] at enough
    obtain ⟨rest,rfl⟩ := Nat.exists_eq_add_of_le ((Nat.le_add_left _ _).trans enough)
    have later := @ih (start + members.length) rest (by omega)
    have once : 0 < (members.rotate start).count member := List.count_pos_iff.mpr (List.mem_rotate.mpr there)
    rw [← List.range'_append_1,List.map_append,List.count_append,round nonempty]
    omega

end RoundRobin
end TitanCore
