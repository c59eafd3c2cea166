import Mathlib.Algebra.Order.Ring.Nat
import Mathlib.Data.List.Basic
import Mathlib.Data.List.Range

/-! One pass over items in ascending order of their keys, taking each item that carries the next
key and that the budget still covers. What it takes is the longest run of consecutive keys that
the budget covers. -/
namespace GreedyRun
variable {α : Type} (key weight : α → Nat)

def greedy (next budget : Nat) : List α → List α
  | [] => []
  | a :: rest =>
    if key a = next ∧ weight a ≤ budget then a :: greedy (next + 1) (budget - weight a) rest
    else greedy next budget rest

/-- Items with consecutive keys from `next` on, all of them covered. -/
structure IsRun (next budget : Nat) (items run : List α) : Prop where
  member : ∀ a ∈ run, a ∈ items
  keys : run.map key = List.range' next run.length
  covered : (run.map weight).sum ≤ budget

variable {key weight} {next budget : Nat} {items run : List α}

theorem IsRun.nil (next budget : Nat) (items : List α) : IsRun key weight next budget items [] :=
  ⟨fun _ member => (List.not_mem_nil member).elim,rfl,Nat.zero_le _⟩

theorem IsRun.cons {a : α} (head : a ∈ items) (at_next : key a = next) (affordable : weight a ≤ budget)
    (tail : IsRun key weight (next + 1) (budget - weight a) items run) :
    IsRun key weight next budget items (a :: run) := by
  refine ⟨List.forall_mem_cons.mpr ⟨head,tail.member⟩,?_,?_⟩
  · rw [List.map_cons,List.length_cons,List.range'_succ,tail.keys,at_next]
  · have rest := tail.covered
    rw [List.map_cons,List.sum_cons]
    omega

theorem IsRun.uncons {a : α} (isRun : IsRun key weight next budget items (a :: run)) :
    key a = next ∧ weight a ≤ budget ∧ IsRun key weight (next + 1) (budget - weight a) items run := by
  have keys := isRun.keys
  have covered := isRun.covered
  rw [List.map_cons,List.length_cons,List.range'_succ,List.cons.injEq] at keys
  rw [List.map_cons,List.sum_cons] at covered
  exact ⟨keys.1,by omega,fun b member => isRun.member b (List.mem_cons_of_mem a member),keys.2,by omega⟩

theorem IsRun.mono {more : List α} (isRun : IsRun key weight next budget items run)
    (sub : ∀ a ∈ items, a ∈ more) : IsRun key weight next budget more run :=
  ⟨fun a member => sub a (isRun.member a member),isRun.keys,isRun.covered⟩

theorem IsRun.self (isRun : IsRun key weight next budget items run) :
    IsRun key weight next budget run run := ⟨fun _ member => member,isRun.keys,isRun.covered⟩

theorem IsRun.richer {more : Nat} (isRun : IsRun key weight next budget items run)
    (enough : budget ≤ more) : IsRun key weight next more items run :=
  ⟨isRun.member,isRun.keys,isRun.covered.trans enough⟩

/-- A run in two parts: the second goes on where the first ends, with what it leaves. -/
theorem IsRun.split {first second : List α}
    (isRun : IsRun key weight next budget items (first ++ second)) :
    IsRun key weight next budget items first ∧
    IsRun key weight (next + first.length) (budget - (first.map weight).sum) items second := by
  induction first generalizing next budget with
  | nil => exact ⟨.nil next budget items,isRun⟩
  | cons a first ih =>
    obtain ⟨at_next,affordable,later⟩ := isRun.uncons
    obtain ⟨front,back⟩ := ih later
    refine ⟨.cons (isRun.member a (List.mem_cons_self)) at_next affordable front,?_⟩
    rw [List.length_cons,List.map_cons,List.sum_cons,← Nat.sub_sub,Nat.add_comm first.length,← Nat.add_assoc]
    exact back

theorem IsRun.le_key (isRun : IsRun key weight next budget items run) {a : α} (member : a ∈ run) :
    next ≤ key a := by
  have inside : key a ∈ run.map key := List.mem_map_of_mem member
  rw [isRun.keys,List.mem_range'_1] at inside
  exact inside.1

theorem IsRun.exists_key (isRun : IsRun key weight next budget items run) {a : α} (member : a ∈ run)
    {k : Nat} (low : next ≤ k) (high : k ≤ key a) : ∃ b ∈ run, key b = k := by
  have inside : key a ∈ run.map key := List.mem_map_of_mem member
  rw [isRun.keys,List.mem_range'_1] at inside
  have between : k ∈ run.map key := by
    rw [isRun.keys,List.mem_range'_1]
    omega
  exact List.mem_map.mp between

/-- Ascending keys from `next` on that leave none out are consecutive. -/
theorem consecutive_of_closed {keys : List Nat} (ascending : keys.Pairwise (· < ·))
    (low : ∀ k ∈ keys, next ≤ k) (closed : ∀ k ∈ keys, ∀ j, next ≤ j → j ≤ k → j ∈ keys) :
    keys = List.range' next keys.length := by
  induction keys generalizing next with
  | nil => rfl
  | cons first rest ih =>
    obtain ⟨above,ascending⟩ := List.pairwise_cons.mp ascending
    have at_next : first = next := by
      have least := low first List.mem_cons_self
      rcases List.mem_cons.mp (closed first List.mem_cons_self next le_rfl least) with same | behind
      · exact same.symm
      · have more := above next behind
        omega
    subst at_next
    rw [List.length_cons,List.range'_succ]
    congr 1
    refine ih ascending above fun k member j least below => ?_
    rcases List.mem_cons.mp (closed k (List.mem_cons_of_mem _ member) j (Nat.le_of_succ_le least) below)
      with same | behind
    · omega
    · exact behind

/-- An item that no run uses does not matter. -/
theorem IsRun.drop {a : α} (isRun : IsRun key weight next budget (a :: items) run) (unused : a ∉ run) :
    IsRun key weight next budget items run := by
  refine ⟨fun b member => ?_,isRun.keys,isRun.covered⟩
  rcases List.mem_cons.mp (isRun.member b member) with rfl | inside
  · exact absurd member unused
  · exact inside

/-- The item with the smallest key starts the run, or no run uses it any more. -/
theorem IsRun.choose {a b : α} (above : ∀ c ∈ items, key a < key c)
    (isRun : IsRun key weight next budget (a :: items) (b :: run)) :
    b = a ∧ IsRun key weight (next + 1) (budget - weight b) items run ∨
      key a < next ∧ IsRun key weight next budget items (b :: run) := by
  obtain ⟨at_next,affordable,later⟩ := isRun.uncons
  rcases List.mem_cons.mp (isRun.member b List.mem_cons_self) with rfl | inside
  · refine .inl ⟨rfl,later.drop fun member => ?_⟩
    have low := later.le_key member
    omega
  · -- `b` carries the next key, so the smaller key of `a` is not in the run
    have below := above b inside
    refine .inr ⟨by omega,isRun.drop fun member => ?_⟩
    have low := isRun.le_key member
    omega

theorem greedy_isRun (next budget : Nat) (items : List α) :
    IsRun key weight next budget items (greedy key weight next budget items) := by
  induction items generalizing next budget with
  | nil => exact .nil next budget []
  | cons a rest ih =>
    have sub : ∀ b ∈ rest, b ∈ a :: rest := fun b member => List.mem_cons_of_mem a member
    rw [greedy]
    split
    · next taken => exact .cons List.mem_cons_self taken.1 taken.2 ((ih _ _).mono sub)
    · exact (ih _ _).mono sub

/-- Any run is the beginning of the one the pass takes. -/
theorem greedy_longest (ascending : items.Pairwise fun a b => key a < key b)
    (isRun : IsRun key weight next budget items run) : run <+: greedy key weight next budget items := by
  induction items generalizing next budget run with
  | nil =>
    rw [List.eq_nil_iff_forall_not_mem.mpr fun a member => List.not_mem_nil (isRun.member a member)]
    exact List.nil_prefix
  | cons a rest ih =>
    obtain ⟨above,tail⟩ := List.pairwise_cons.mp ascending
    rw [greedy]
    cases run with
    | nil => exact List.nil_prefix
    | cons b run =>
      obtain ⟨at_next,affordable,-⟩ := isRun.uncons
      rcases isRun.choose above with ⟨rfl,later⟩ | ⟨below,later⟩
      · rw [if_pos ⟨at_next,affordable⟩]
        exact List.cons_prefix_cons.mpr ⟨rfl,ih tail later⟩
      · rw [if_neg fun taken => by omega]
        exact ih tail later

theorem greedy_eq_self (keys : items.map key = List.range' next items.length)
    (covered : (items.map weight).sum ≤ budget) : greedy key weight next budget items = items := by
  induction items generalizing next budget with
  | nil => rfl
  | cons a rest ih =>
    obtain ⟨at_next,affordable,later⟩ :=
      (IsRun.mk (fun _ member => member) keys covered : IsRun key weight next budget _ _).uncons
    rw [greedy,if_pos ⟨at_next,affordable⟩,ih later.keys later.covered]

end GreedyRun
