import Mathlib.Logic.Basic

/-! Programs over a state that may stop early, with a reason, and the rules of pre- and
postconditions for them. A program that stops keeps the changes it made until then. -/

/-- From a state, a result or the reason for stopping, and the state left behind. -/
def Program (σ ε α : Type) : Type := σ → Except ε α × σ

namespace Program
variable {σ ε α β : Type}

instance : Monad (Program σ ε) where
  pure a := fun s => (.ok a,s)
  bind x f := fun s =>
    match x s with
    | (.ok a,t) => f a t
    | (.error e,t) => (.error e,t)

theorem bind_run (x : Program σ ε β) (f : β → Program σ ε α) (s : σ) : (x >>= f) s =
    match x s with
    | (.ok a,t) => f a t
    | (.error e,t) => (.error e,t) := rfl

def get : Program σ ε σ := fun s => (.ok s,s)
def modify (f : σ → σ) : Program σ ε Unit := fun s => (.ok (),f s)
def stop (e : ε) : Program σ ε α := fun s => (.error e,s)

/-- A computation that may fail but does not touch the state. -/
def lift (f : δ → ε) : Except δ α → Program σ ε α
  | .ok a => pure a
  | .error d => stop (f d)

/-- Run the handler on a reason for stopping, in the state that was left. -/
def tryCatch (x : Program σ ε α) (handler : ε → Program σ ε α) : Program σ ε α := fun s =>
  match x s with
  | (.ok a,t) => (.ok a,t)
  | (.error e,t) => handler e t

/-- From every state of `pre` the program ends in `post`, or stops in `halt`. -/
def Triple (pre : σ → Prop) (x : Program σ ε α) (post : α → σ → Prop) (halt : ε → σ → Prop) : Prop :=
  ∀ s, pre s → match x s with
    | (.ok a,t) => post a t
    | (.error e,t) => halt e t

section
variable {pre : σ → Prop} {post : α → σ → Prop} {halt : ε → σ → Prop}

theorem Triple.ok {x : Program σ ε α} (triple : Triple pre x post halt) {s t : σ} {a : α}
    (start : pre s) (run : x s = (.ok a,t)) : post a t := by
  have outcome := triple s start
  rw [run] at outcome
  exact outcome

theorem Triple.error {x : Program σ ε α} (triple : Triple pre x post halt) {s t : σ} {e : ε}
    (start : pre s) (run : x s = (.error e,t)) : halt e t := by
  have outcome := triple s start
  rw [run] at outcome
  exact outcome

theorem Triple.returns {x : Program σ ε α} (triple : Triple pre x post fun _ _ => False) {s : σ}
    (start : pre s) : ∃ a t, x s = (.ok a,t) ∧ post a t := by
  have outcome := triple s start
  cases run : x s with
  | mk result t =>
    rw [run] at outcome
    cases result with
    | ok a => exact ⟨a,t,rfl,outcome⟩
    | error e => exact outcome.elim

theorem Triple.pure {a : α} (holds : ∀ s, pre s → post a s) :
    Triple pre (Pure.pure a : Program σ ε α) post halt := holds

theorem Triple.stop {e : ε} (holds : ∀ s, pre s → halt e s) :
    Triple pre (Program.stop e : Program σ ε α) post halt := holds

theorem Triple.modify {f : σ → σ} {post : Unit → σ → Prop} (holds : ∀ s, pre s → post () (f s)) :
    Triple pre (Program.modify f) post halt := holds

theorem Triple.bind {x : Program σ ε β} {f : β → Program σ ε α} {mid : β → σ → Prop}
    (first : Triple pre x mid halt) (second : ∀ b, Triple (mid b) (f b) post halt) :
    Triple pre (x >>= f) post halt := by
  intro s start
  have outcome := first s start
  change match (match x s with
    | (.ok b,t) => f b t
    | (.error e,t) => (.error e,t)) with
    | (.ok a,t) => post a t
    | (.error e,t) => halt e t
  cases run : x s with
  | mk result t =>
    rw [run] at outcome
    cases result with
    | ok b => exact second b t outcome
    | error e => exact outcome

theorem Triple.tryCatch {x : Program σ ε α} {handler : ε → Program σ ε α} {caught : ε → σ → Prop}
    (tried : Triple pre x post caught) (handled : ∀ e, Triple (caught e) (handler e) post halt) :
    Triple pre (Program.tryCatch x handler) post halt := by
  intro s start
  have outcome := tried s start
  unfold Program.tryCatch
  cases run : x s with
  | mk result t =>
    rw [run] at outcome
    cases result with
    | ok a => exact outcome
    | error e => exact handled e t outcome

theorem Triple.consequence {x : Program σ ε α} {pre' : σ → Prop} {post' : α → σ → Prop}
    {halt' : ε → σ → Prop} (triple : Triple pre x post halt) (stronger : ∀ s, pre' s → pre s)
    (weaker : ∀ a s, post a s → post' a s) (weaker_halt : ∀ e s, halt e s → halt' e s) :
    Triple pre' x post' halt' := by
  intro s start
  have outcome := triple s (stronger s start)
  cases run : x s with
  | mk result t =>
    rw [run] at outcome
    cases result with
    | ok a => exact weaker a t outcome
    | error e => exact weaker_halt e t outcome

/-- A program has one outcome, so what two triples say of it holds at once. -/
theorem Triple.both {x : Program σ ε α} {pre' : σ → Prop} {post' : α → σ → Prop}
    {halt' : ε → σ → Prop} (first : Triple pre x post halt) (second : Triple pre' x post' halt') :
    Triple (fun s => pre s ∧ pre' s) x (fun a t => post a t ∧ post' a t)
      (fun e t => halt e t ∧ halt' e t) := by
  intro s start
  have one := first s start.1
  have other := second s start.2
  cases run : x s with
  | mk result t =>
    rw [run] at one other
    cases result with
    | ok a => exact ⟨one,other⟩
    | error e => exact ⟨one,other⟩

theorem Triple.lift {f : δ → ε} {x : Except δ α} (done : ∀ a, x = .ok a → ∀ s, pre s → post a s)
    (failed : ∀ d, x = .error d → ∀ s, pre s → halt (f d) s) :
    Triple pre (Program.lift f x) post halt := by
  cases x with
  | ok a => exact done a rfl
  | error d => exact failed d rfl

theorem Triple.ite {c : Prop} [Decidable c] {x y : Program σ ε α}
    (yes : c → Triple pre x post halt) (no : ¬ c → Triple pre y post halt) :
    Triple pre (if c then x else y) post halt := by
  split
  · next h => exact yes h
  · next h => exact no h

end

def Reads (x : Program σ ε α) : Prop := ∀ s, (x s).2 = s

section
variable {x : Program σ ε β} {f : β → Program σ ε α}

/-- What only looks does not matter for the state that is left. -/
theorem bind_reads (rest : ∀ b, Reads (f b)) (s : σ) : ((x >>= f) s).2 = (x s).2 := by
  rw [bind_run]
  rcases x s with ⟨_ | b,t⟩
  · rfl
  · exact rest b t

theorem tryCatch_reads {y : Program σ ε α} {handler : ε → Program σ ε α} (handled : ∀ e, Reads (handler e))
    (s : σ) : (tryCatch y handler s).2 = (y s).2 := by
  unfold tryCatch
  rcases y s with ⟨e | a,t⟩
  · exact handled e t
  · rfl

theorem Reads.pure (a : α) : Reads (Pure.pure a : Program σ ε α) := fun _ => rfl

theorem Reads.stop (e : ε) : Reads (Program.stop e : Program σ ε α) := fun _ => rfl

theorem Reads.get : Reads (Program.get : Program σ ε σ) := fun _ => rfl

theorem Reads.lift (f : δ → ε) (x : Except δ α) : Reads (Program.lift f x : Program σ ε α) := by
  cases x <;> exact fun _ => rfl

theorem Reads.bind (first : Reads x) (rest : ∀ b, Reads (f b)) : Reads (x >>= f) :=
  fun s => (bind_reads rest s).trans (first s)

theorem Reads.tryCatch {y : Program σ ε α} {handler : ε → Program σ ε α} (tried : Reads y)
    (handled : ∀ e, Reads (handler e)) : Reads (Program.tryCatch y handler) :=
  fun s => (tryCatch_reads handled s).trans (tried s)

end
end Program
