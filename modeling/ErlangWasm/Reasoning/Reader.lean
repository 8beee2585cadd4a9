import Mathlib.Data.List.Basic

/-!
# Readers that never give back more than they took

A `Reader` takes a value off the front of a list, or fails.  Its result is never longer than what
it was given, so a reader that reads one item before it calls itself is done after as many calls
as there are items (`Agrees`).
-/

namespace Reasoning

structure Reader (σ ε α : Type) where
  run : List σ → Except ε (α × List σ)
  shrinks : ∀ {bin v rest}, run bin = .ok (v, rest) → rest.length ≤ bin.length

namespace Reader

variable {σ ε α β : Type}

/-- An answer that reads nothing. -/
def lift (r : Except ε α) : Reader σ ε α where
  run bin := r.map (·, bin)
  shrinks h := by
    cases r with
    | error e => cases h
    | ok v =>
      cases h
      exact Nat.le_refl _

def fail (e : ε) : Reader σ ε α := lift (.error e)

def andThen (p : Reader σ ε α) (f : α → Reader σ ε β) : Reader σ ε β where
  run bin :=
    match p.run bin with
    | .ok (v, rest) => (f v).run rest
    | .error e => .error e
  shrinks {bin w rest'} h := by
    split at h
    · rename_i v rest hp
      exact Nat.le_trans ((f v).shrinks h) (p.shrinks hp)
    · cases h

instance : Monad (Reader σ ε) where
  pure v := lift (.ok v)
  bind := andThen

/-- The first item. -/
def item (onEnd : ε) : Reader σ ε σ where
  run
    | [] => .error onEnd
    | x :: rest => .ok (x, rest)
  shrinks {bin v rest} h := by
    cases bin with
    | nil => cases h
    | cons x xs =>
      cases h
      exact Nat.le_succ _

/-- The first item, left where it is. -/
def peek : Reader σ ε (Option σ) where
  run bin := .ok (bin.head?, bin)
  shrinks h := by
    cases h
    exact Nat.le_refl _

/-- How many items are left. -/
def left : Reader σ ε ℕ where
  run bin := .ok (bin.length, bin)
  shrinks h := by
    cases h
    exact Nat.le_refl _

/-- Exactly `n` items. -/
def take (n : ℕ) (onEnd : ℕ → ε) : Reader σ ε (List σ) where
  run bin := if n ≤ bin.length then .ok (bin.take n, bin.drop n) else .error (onEnd bin.length)
  shrinks {bin v rest} h := by
    split at h
    · cases h
      simp
    · cases h

def times (p : Reader σ ε α) : ℕ → Reader σ ε (List α)
  | 0 => pure []
  | n + 1 => do
      let v ← p
      let vs ← times p n
      pure (v :: vs)

/-! ## Readers that agree -/

/-- `p` and `q` do the same to every list of at most `n` items. -/
def Agrees (n : ℕ) (p q : Reader σ ε α) : Prop :=
  ∀ bin : List σ, bin.length ≤ n → p.run bin = q.run bin

variable {n : ℕ}

theorem Agrees.refl (p : Reader σ ε α) : Agrees n p p := fun _ _ => rfl

@[simp] theorem run_bind (p : Reader σ ε α) (f : α → Reader σ ε β) (bin : List σ) :
    (p >>= f).run bin =
      match p.run bin with
      | .ok (v, rest) => (f v).run rest
      | .error e => .error e := rfl

/-- What a reader that goes on has read, where it succeeds. -/
theorem run_bind_eq_ok {p : Reader σ ε α} {f : α → Reader σ ε β} {bin rest : List σ} {v : β} :
    (p >>= f).run bin = .ok (v, rest) ↔
      ∃ a mid, p.run bin = .ok (a, mid) ∧ (f a).run mid = .ok (v, rest) := by
  rw [run_bind]
  cases p.run bin with
  | error e => simp
  | ok r =>
    constructor
    · intro h
      exact ⟨r.1, r.2, rfl, h⟩
    · rintro ⟨a, mid, hr, h⟩
      cases hr
      exact h

@[simp] theorem run_pure (v : α) (bin : List σ) : (pure v : Reader σ ε α).run bin = .ok (v, bin) :=
  rfl

theorem Agrees.bind {p q : Reader σ ε α} {f g : α → Reader σ ε β} (hp : Agrees n p q)
    (hf : ∀ v, Agrees n (f v) (g v)) : Agrees n (p >>= f) (q >>= g) := by
  intro bin hbin
  rw [run_bind, run_bind, ← hp bin hbin]
  split
  · rename_i v rest hrun
    exact hf v rest (Nat.le_trans (p.shrinks hrun) hbin)
  · rfl

end Reader

end Reasoning
