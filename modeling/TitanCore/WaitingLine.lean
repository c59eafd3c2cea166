import Mathlib.Data.List.Perm.Basic
import Mathlib.Data.List.Nodup

/-! A line in which items wait: they join at the back and leave from any position. The items of
one key leave in the order they joined exactly when none leaves past another one of its key. -/
namespace WaitingLine

/-- An item may also be turned away, which changes nothing. -/
inductive Move (α : Type) where
  | join (item : α)
  | turnAway
  | leave (position : Nat)

structure Line (α : Type) where
  joined : List α
  gone : List α
  waiting : List α

variable {α κ : Type} [DecidableEq κ]

namespace Line

def start : Line α := ⟨[],[],[]⟩

def move (line : Line α) : Move α → Line α
  | .join item => ⟨line.joined ++ [item],line.gone,line.waiting ++ [item]⟩
  | .turnAway => line
  | .leave position =>
    match line.waiting[position]? with
    | none => line
    | some item => ⟨line.joined,line.gone ++ [item],line.waiting.eraseIdx position⟩

def run (line : Line α) (moves : List (Move α)) : Line α := moves.foldl move line

end Line

def withKey (key : α → κ) (k : κ) (items : List α) : List α := items.filter fun item => key item = k

/-- Nobody is passed by an item of the same key. -/
def InTurn (key : α → κ) (waiting : List α) : Move α → Prop
  | .leave position => ∀ item, waiting[position]? = some item →
    ∀ ahead ∈ waiting.take position, key ahead ≠ key item
  | _ => True

def AllInTurn (key : α → κ) : Line α → List (Move α) → Prop
  | _,[] => True
  | line,move :: rest => InTurn key line.waiting move ∧ AllInTurn key (line.move move) rest

def Balanced (line : Line α) : Prop := line.joined.Perm (line.gone ++ line.waiting)

/-- Key by key, those who left joined before those who wait, and in that order. -/
def Ordered (key : α → κ) (line : Line α) : Prop :=
  ∀ k, withKey key k line.joined = withKey key k line.gone ++ withKey key k line.waiting

section
variable {key : α → κ} {line : Line α}

@[simp] theorem withKey_append (k : κ) (first second : List α) :
    withKey key k (first ++ second) = withKey key k first ++ withKey key k second :=
  List.filter_append ..

theorem withKey_cons_self (item : α) (rest : List α) :
    withKey key (key item) (item :: rest) = item :: withKey key (key item) rest :=
  List.filter_cons_of_pos (by simp)

theorem withKey_cons_other {k : κ} {item : α} (other : key item ≠ k) (rest : List α) :
    withKey key k (item :: rest) = withKey key k rest :=
  List.filter_cons_of_neg (by simpa using other)

theorem withKey_nil_iff {k : κ} {items : List α} :
    withKey key k items = [] ↔ ∀ item ∈ items, key item ≠ k := by
  simp [withKey,List.filter_eq_nil_iff]

theorem move_leave_none {position : Nat} (absent : line.waiting[position]? = none) :
    line.move (.leave position) = line := by
  simp only [Line.move,absent]

/-- Who leaves splits the line into those ahead and those behind. -/
theorem move_leave_some {position : Nat} {item : α} (found : line.waiting[position]? = some item) :
    ∃ behind, line.waiting = line.waiting.take position ++ item :: behind ∧
      line.move (.leave position) =
        ⟨line.joined,line.gone ++ [item],line.waiting.take position ++ behind⟩ := by
  obtain ⟨inside,at_position⟩ := List.getElem?_eq_some_iff.mp found
  refine ⟨line.waiting.drop (position + 1),?_,?_⟩
  · rw [← at_position,← List.drop_eq_getElem_cons inside,List.take_append_drop]
  · simp only [Line.move,found,List.eraseIdx_eq_take_drop_succ]

theorem Balanced.start : Balanced (Line.start : Line α) := List.Perm.refl []

theorem Balanced.move (balanced : Balanced line) (move : Move α) : Balanced (line.move move) := by
  cases move with
  | join item =>
    have more := balanced.append_right [item]
    rwa [List.append_assoc] at more
  | turnAway => exact balanced
  | leave position =>
    cases found : line.waiting[position]? with
    | none => rwa [move_leave_none found]
    | some item =>
      obtain ⟨behind,split,moved⟩ := move_leave_some found
      rw [Balanced,split] at balanced
      rw [moved]
      refine balanced.trans ?_
      rw [List.append_assoc]
      exact List.Perm.append_left _ List.perm_middle

theorem Balanced.run (balanced : Balanced line) (moves : List (Move α)) : Balanced (line.run moves) := by
  induction moves generalizing line with
  | nil => exact balanced
  | cons move rest ih => exact ih (balanced.move move)

theorem Ordered.start : Ordered key (Line.start : Line α) := fun _ => rfl

theorem Ordered.move (ordered : Ordered key line) {move : Move α}
    (turn : InTurn key line.waiting move) : Ordered key (line.move move) := by
  intro k
  have before := ordered k
  cases move with
  | join item =>
    simp only [Line.move,withKey_append,before,List.append_assoc]
  | turnAway => exact before
  | leave position =>
    cases found : line.waiting[position]? with
    | none => rwa [move_leave_none found]
    | some item =>
      obtain ⟨behind,split,moved⟩ := move_leave_some found
      have free := turn item found
      rw [split,withKey_append] at before
      rw [moved]
      simp only [withKey_append]
      by_cases own : key item = k
      · subst own
        -- nobody of this key was ahead
        rw [withKey_nil_iff.mpr free,withKey_cons_self] at before
        rw [before,withKey_nil_iff.mpr free,withKey_cons_self,List.append_assoc]
        rfl
      · rw [withKey_cons_other own] at before
        rw [before,withKey_cons_other own]
        simp [withKey]

theorem Ordered.run (ordered : Ordered key line) {moves : List (Move α)}
    (turns : AllInTurn key line moves) : Ordered key (line.run moves) := by
  induction moves generalizing line with
  | nil => exact ordered
  | cons move rest ih => exact ih (ordered.move turns.1) turns.2

theorem joined_prefix (line : Line α) (moves : List (Move α)) :
    line.joined <+: (line.run moves).joined := by
  induction moves generalizing line with
  | nil => exact List.prefix_rfl
  | cons move rest ih =>
    refine List.IsPrefix.trans ?_ (ih (line.move move))
    cases move with
    | join item => exact List.prefix_append _ _
    | turnAway => exact List.prefix_rfl
    | leave position => simp only [Line.move]; split <;> exact List.prefix_rfl

theorem joined_length (line : Line α) (moves : List (Move α)) :
    (line.run moves).joined.length ≤ line.joined.length + moves.length := by
  induction moves generalizing line with
  | nil => exact Nat.le_refl _
  | cons move rest ih =>
    have later := ih (line.move move)
    have one : (line.move move).joined.length ≤ line.joined.length + 1 := by
      cases move with
      | join item => simp [Line.move]
      | turnAway => exact Nat.le_succ _
      | leave position => simp only [Line.move]; split <;> exact Nat.le_succ _
    change ((line.move move).run rest).joined.length ≤ _
    rw [List.length_cons]
    omega

theorem gone_prefix (line : Line α) (moves : List (Move α)) : line.gone <+: (line.run moves).gone := by
  induction moves generalizing line with
  | nil => exact List.prefix_rfl
  | cons move rest ih =>
    refine List.IsPrefix.trans ?_ (ih (line.move move))
    cases move with
    | join item => exact List.prefix_rfl
    | turnAway => exact List.prefix_rfl
    | leave position =>
      simp only [Line.move]
      split
      · exact List.prefix_rfl
      · exact List.prefix_append _ _

/-- The leaving item and the first of its key that waits are both next in the final order. -/
theorem inTurn_of_order (ordered : Ordered key line) (balanced : Balanced line) {position : Nat}
    {rest : List (Move α)} (distinct : (line.run (.leave position :: rest)).joined.Nodup)
    (order : ∀ k, withKey key k (line.run (.leave position :: rest)).gone =
      withKey key k (line.run (.leave position :: rest)).joined) :
    InTurn key line.waiting (.leave position) := by
  intro item found
  obtain ⟨behind,split,moved⟩ := move_leave_some found
  have left : line.gone ++ [item] <+: (line.run (.leave position :: rest)).gone := by
    change _ <+: ((line.move (.leave position)).run rest).gone
    rw [moved]
    exact gone_prefix (Line.mk line.joined (line.gone ++ [item]) _) rest
  have came := joined_prefix line (.leave position :: rest)
  have apart : line.waiting.Nodup :=
    (List.nodup_append.mp (balanced.nodup_iff.mp (distinct.sublist came.sublist))).2.1
  have left_key : withKey key (key item) (line.gone ++ [item]) <+: _ := left.filter _
  have came_key : withKey key (key item) line.joined <+: _ := came.filter _
  change _ <+: withKey key (key item) (line.run (.leave position :: rest)).gone at left_key
  change _ <+: withKey key (key item) (line.run (.leave position :: rest)).joined at came_key
  rw [withKey_append,withKey_cons_self] at left_key
  rw [← order,ordered,split,withKey_append] at came_key
  rw [← withKey_nil_iff]
  cases ahead : withKey key (key item) (line.waiting.take position) with
  | nil => rfl
  | cons first others =>
    rw [ahead,withKey_cons_self] at came_key
    have next : withKey key (key item) line.gone ++ [item] <+:
        withKey key (key item) line.gone ++ (first :: others ++ item :: _) :=
      List.prefix_of_prefix_length_le left_key came_key (by simp)
    obtain ⟨same,-⟩ := List.cons_prefix_cons.mp ((List.prefix_append_right_inj _).mp next)
    have member : first ∈ withKey key (key item) (line.waiting.take position) := by
      rw [ahead]
      exact List.mem_cons_self
    -- but no item stands twice in the line
    rw [split] at apart
    exact absurd (same.symm ▸ (List.mem_filter.mp member).1)
      (List.disjoint_of_nodup_append apart · List.mem_cons_self)

/-- When in the end everybody left in the order of joining, nobody was ever passed. -/
theorem allInTurn_of_order (ordered : Ordered key line) (balanced : Balanced line)
    (moves : List (Move α)) (distinct : (line.run moves).joined.Nodup)
    (order : ∀ k, withKey key k (line.run moves).gone = withKey key k (line.run moves).joined) :
    AllInTurn key line moves := by
  induction moves generalizing line with
  | nil => trivial
  | cons move rest ih =>
    have turn : InTurn key line.waiting move := by
      cases move with
      | join item => trivial
      | turnAway => trivial
      | leave position => exact inTurn_of_order ordered balanced distinct order
    exact ⟨turn,ih (ordered.move turn) (balanced.move move) distinct order⟩

end
end WaitingLine
