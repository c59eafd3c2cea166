import Mathlib.Algebra.BigOperators.Group.Multiset.Basic
import Mathlib.Data.Finmap
import Mathlib.Data.Finset.Sort

/-! Finite maps with one type of values: values rewritten in place, the total weight of all
values, which an update changes by what it puts in less what it takes out, and the entries in
the order of their keys. -/
namespace FiniteMap
variable {α β γ : Type} [DecidableEq α]

abbrev Map (α β : Type) := Finmap fun _ : α => β

def mapEntry (f : β → γ) (entry : Sigma fun _ : α => β) : Sigma fun _ : α => γ :=
  ⟨entry.1,f entry.2⟩

omit [DecidableEq α] in
theorem keys_mapEntry (f : β → γ) (entries : List (Sigma fun _ : α => β)) :
    (entries.map (mapEntry f)).keys = entries.keys := by
  simp [List.keys,mapEntry,Function.comp_def]

def mapValues (f : β → γ) (m : Map α β) : Map α γ :=
  ⟨m.entries.map (mapEntry f),by
    obtain ⟨entries,nodup⟩ := m
    induction entries using Quotient.inductionOn with
    | _ entries =>
      have plain : entries.keys.Nodup := nodup
      change (entries.map (mapEntry f)).keys.Nodup
      rw [keys_mapEntry]
      exact plain⟩

@[simp] theorem lookup_mapValues (f : β → γ) (m : Map α β) (a : α) :
    (mapValues f m).lookup a = (m.lookup a).map f := by
  ext c
  simp only [Option.map_eq_some_iff,Finmap.lookup_eq_some_iff,mapValues,Multiset.mem_map]
  constructor
  · rintro ⟨⟨k,b⟩,member,same⟩
    simp only [mapEntry,Sigma.mk.injEq,heq_eq_eq] at same
    obtain ⟨rfl,rfl⟩ := same
    exact ⟨b,member,rfl⟩
  · rintro ⟨b,member,rfl⟩
    exact ⟨⟨a,b⟩,member,rfl⟩

theorem insert_erase (m : Map α β) (a : α) (b : β) : (m.erase a).insert a b = m.insert a b := by
  apply Finmap.ext_lookup
  intro k
  by_cases same : k = a
  · subst same; simp
  · simp [Finmap.lookup_insert_of_ne _ same,Finmap.lookup_erase_ne same]

theorem insert_lookup {m : Map α β} {a : α} {b : β} (held : m.lookup a = some b) :
    m.insert a b = m := by
  apply Finmap.ext_lookup
  intro k
  by_cases same : k = a
  · subst same; simp [held]
  · simp [Finmap.lookup_insert_of_ne _ same]

section total
variable (weight : β → Nat)

def total (m : Map α β) : Nat := (m.entries.map fun entry => weight entry.2).sum

omit [DecidableEq α] in
@[simp] theorem total_empty : total weight (∅ : Map α β) = 0 := rfl

omit [DecidableEq α] in
theorem total_mapValues (weight : γ → Nat) (f : β → γ) (m : Map α β) :
    total weight (mapValues f m) = total (fun b => weight (f b)) m := by
  simp only [total,mapValues,Multiset.map_map]
  rfl

theorem total_insert_new {m : Map α β} {a : α} (b : β) (absent : a ∉ m) :
    total weight (m.insert a b) = weight b + total weight m := by
  simp [total,Finmap.entries_insert_of_notMem absent]

theorem total_erase {m : Map α β} {a : α} {b : β} (held : m.lookup a = some b) :
    weight b + total weight (m.erase a) = total weight m := by
  rw [← total_insert_new weight b Finmap.notMem_erase_self,insert_erase,insert_lookup held]

theorem total_insert (m : Map α β) (a : α) (b : β) :
    total weight (m.insert a b) + (m.lookup a).elim 0 weight = total weight m + weight b := by
  cases held : m.lookup a with
  | none =>
    rw [total_insert_new weight b (Finmap.lookup_eq_none.mp held)]
    simp only [Option.elim_none]
    omega
  | some old =>
    rw [← insert_erase m a b,total_insert_new weight b Finmap.notMem_erase_self,
      ← total_erase weight held]
    simp only [Option.elim_some]
    omega

theorem weight_le_total {m : Map α β} {a : α} {b : β} (held : m.lookup a = some b) :
    weight b ≤ total weight m := by
  rw [← total_erase weight held]
  omega

theorem total_eq_zero {m : Map α β} (zero : ∀ a b, m.lookup a = some b → weight b = 0) :
    total weight m = 0 := by
  refine Multiset.sum_eq_zero fun n member => ?_
  obtain ⟨⟨a,b⟩,inside,rfl⟩ := Multiset.mem_map.mp member
  exact zero a b (Finmap.lookup_eq_some_iff.mpr inside)

/-- When only one key weighs anything, it is the total. -/
theorem total_eq_single {m : Map α β} {a : α}
    (others : ∀ k b, k ≠ a → m.lookup k = some b → weight b = 0) :
    total weight m = (m.lookup a).elim 0 weight := by
  have rest : total weight (m.erase a) = 0 := by
    apply total_eq_zero
    intro k b held
    by_cases same : k = a
    · rw [same,Finmap.lookup_erase] at held
      cases held
    · rw [Finmap.lookup_erase_ne same] at held
      exact others k b same held
  cases held : m.lookup a with
  | none =>
    apply total_eq_zero
    intro k b found
    refine others k b ?_ found
    rintro rfl
    rw [held] at found
    cases found
  | some b => rw [← total_erase weight held,rest,Nat.add_zero,Option.elim_some]

end total

section scan
variable (r : α → α → Prop) [DecidableRel r] [IsTrans α r] [Std.Antisymm r] [Std.Total r]

/-- The entries in the order of their keys, as an iterator visits them. -/
def ascending (m : Map α β) : List (α × β) :=
  (m.keys.sort r).filterMap fun a => (m.lookup a).map fun b => (a,b)

def seek (m : Map α β) (a : α) : List (α × β) := (ascending r m).dropWhile fun entry => ¬ r a entry.1

theorem mem_ascending {m : Map α β} {a : α} {b : β} : (a,b) ∈ ascending r m ↔ m.lookup a = some b := by
  simp only [ascending,List.mem_filterMap,Finset.mem_sort,Option.map_eq_some_iff,Prod.mk.injEq]
  constructor
  · rintro ⟨k,-,v,held,rfl,rfl⟩
    exact held
  · intro held
    refine ⟨a,?_,b,held,rfl,rfl⟩
    rw [Finmap.mem_keys,← Finmap.lookup_isSome,held]
    rfl

theorem ascending_pairwise (m : Map α β) :
    (ascending r m).Pairwise fun x y => r x.1 y.1 ∧ x.1 ≠ y.1 := by
  have strict : (m.keys.sort r).Pairwise fun a b => r a b ∧ a ≠ b :=
    List.Pairwise.and (Finset.pairwise_sort m.keys r) (Finset.sort_nodup m.keys r)
  rw [ascending,List.pairwise_filterMap]
  refine strict.imp fun {a b} ordered x found y found' => ?_
  obtain ⟨_,-,rfl⟩ := Option.map_eq_some_iff.mp found
  obtain ⟨_,-,rfl⟩ := Option.map_eq_some_iff.mp found'
  exact ordered

/-- On a sorted list, dropping what fails a property that later entries inherit is filtering. -/
theorem dropWhile_eq_filter {γ : Type} {p : γ → Bool} {l : List γ}
    (inherits : l.Pairwise fun x y => p x = true → p y = true) :
    l.dropWhile (fun x => ¬ p x) = l.filter p := by
  induction l with
  | nil => rfl
  | cons x l ih =>
    obtain ⟨head,tail⟩ := List.pairwise_cons.mp inherits
    by_cases holds : p x = true
    · rw [List.dropWhile_cons_of_neg (by simpa using holds),List.filter_cons_of_pos holds,
        List.filter_eq_self.mpr fun y member => head y member holds]
    · rw [List.dropWhile_cons_of_pos (by simpa using holds),List.filter_cons_of_neg holds,ih tail]

theorem seek_eq_filter (m : Map α β) (a : α) :
    seek r m a = (ascending r m).filter fun entry => r a entry.1 := by
  have inherits : (ascending r m).Pairwise fun x y => decide (r a x.1) = true → decide (r a y.1) = true :=
    (ascending_pairwise r m).imp fun ordered from_a => by
      simp only [decide_eq_true_eq] at from_a ⊢
      exact IsTrans.trans _ _ _ from_a ordered.1
  have filtered := dropWhile_eq_filter inherits
  simpa only [seek,decide_eq_true_eq] using filtered

theorem mem_seek {m : Map α β} {start a : α} {b : β} :
    (a,b) ∈ seek r m start ↔ m.lookup a = some b ∧ r start a := by
  rw [seek_eq_filter,List.mem_filter,mem_ascending,decide_eq_true_eq]

theorem seek_pairwise (m : Map α β) (a : α) :
    (seek r m a).Pairwise fun x y => r x.1 y.1 ∧ x.1 ≠ y.1 := by
  rw [seek_eq_filter]
  exact (ascending_pairwise r m).filter _

end scan
end FiniteMap
