import Mathlib.Algebra.Ring.Nat
import Mathlib.Data.List.Basic

/-!
# Runs of a guarded step function

A system is an executable step function: `step s a = some s'` when action `a` is enabled in `s`
and leads to `s'`.  One definition serves replay of a concrete schedule (`exec`) and proof about
every schedule (`ReachableIf`).  The second carries a side condition `ok` on each step, read in
the state before it; plain reachability is the condition that is always true.
-/

namespace Reasoning.Run

variable {S A : Type*}

/-- Replay a schedule; `none` when an action along the way is not enabled. -/
def exec (step : S → A → Option S) : List A → S → Option S
  | [], s => some s
  | a :: as, s => (step s a).bind (exec step as)

theorem exec_append (step : S → A → Option S) (as bs : List A) (s : S) :
    exec step (as ++ bs) s = (exec step as s).bind (exec step bs) := by
  induction as generalizing s with
  | nil => rfl
  | cons a as ih =>
    rw [List.cons_append, exec, exec, Option.bind_assoc]
    congr 1
    funext t
    exact ih t

/-- The states some schedule reaches from `init` when every step meets `ok` before it is taken. -/
inductive ReachableIf (step : S → A → Option S) (ok : S → A → Prop) (init : S) : S → Prop
  | init : ReachableIf step ok init init
  | step {s s' : S} {a : A} (hs : ReachableIf step ok init s) (hok : ok s a)
      (h : step s a = some s') : ReachableIf step ok init s'

/-- Reachability with no condition on the steps. -/
abbrev Reachable (step : S → A → Option S) (init s : S) : Prop :=
  ReachableIf step (fun _ _ => True) init s

variable {step : S → A → Option S} {ok : S → A → Prop} {init : S}

/-- A property that holds at the start and is kept by every step meeting `ok` holds in every
state such steps reach. -/
theorem ReachableIf.invariant (I : S → Prop) (hinit : I init)
    (hstep : ∀ s a s', I s → ok s a → step s a = some s' → I s') {s : S}
    (h : ReachableIf step ok init s) : I s := by
  induction h with
  | init => exact hinit
  | step _ hok hs ih => exact hstep _ _ _ ih hok hs

theorem ReachableIf.mono {ok' : S → A → Prop} (hmono : ∀ s a, ok s a → ok' s a) {s : S}
    (h : ReachableIf step ok init s) : ReachableIf step ok' init s := by
  induction h with
  | init => exact .init
  | step _ hok hs ih => exact .step ih (hmono _ _ hok) hs

/-- `exec`, stopping at the first step that does not meet `ok`. -/
def execIf (step : S → A → Option S) (ok : S → A → Prop) [∀ s a, Decidable (ok s a)] :
    List A → S → Option S
  | [], s => some s
  | a :: as, s => if ok s a then (step s a).bind (execIf step ok as) else none

theorem ReachableIf.of_execIf [∀ s a, Decidable (ok s a)] {as : List A} {s s' : S}
    (hs : ReachableIf step ok init s) (h : execIf step ok as s = some s') :
    ReachableIf step ok init s' := by
  induction as generalizing s with
  | nil =>
    rw [execIf, Option.some.injEq] at h
    exact h ▸ hs
  | cons a as ih =>
    rw [execIf] at h
    split at h
    · rename_i hok
      obtain ⟨t, ht, hrest⟩ := Option.bind_eq_some_iff.mp h
      exact ih (hs.step hok ht) hrest
    · simp at h

theorem Reachable.of_exec {as : List A} {s s' : S} (hs : Reachable step init s)
    (h : exec step as s = some s') : Reachable step init s' := by
  induction as generalizing s with
  | nil =>
    rw [exec, Option.some.injEq] at h
    exact h ▸ hs
  | cons a as ih =>
    obtain ⟨t, ht, hrest⟩ := Option.bind_eq_some_iff.mp h
    exact ih (.step hs trivial ht) hrest

/-- The runs from one state to another with the actions they take, when every step meets `ok` before
it is taken. -/
inductive PathIf (step : S → A → Option S) (ok : S → A → Prop) : S → List A → S → Prop
  | nil (s : S) : PathIf step ok s [] s
  | cons {s t u : S} {a : A} {as : List A} (hok : ok s a) (h : step s a = some t)
      (hrest : PathIf step ok t as u) : PathIf step ok s (a :: as) u

abbrev Path (step : S → A → Option S) (s : S) (as : List A) (u : S) : Prop :=
  PathIf step (fun _ _ => True) s as u

/-- What every step meeting `ok` keeps holds at the end of a run when it holds at its start. -/
theorem PathIf.invariant (I : S → Prop) (hstep : ∀ s a t, I s → ok s a → step s a = some t → I t)
    {s u : S} {as : List A} (hs : I s) (h : PathIf step ok s as u) : I u := by
  induction h with
  | nil => exact hs
  | cons hok h _ ih => exact ih (hstep _ _ _ hs hok h)

/-- Where every step gives up what it costs of a potential, but for what its action brings in, the
costs of a run are within the potential at its start and what its actions bring in. -/
theorem PathIf.cost_le {I : S → Prop} {potential : S → ℕ} {cost gain : A → ℕ}
    (hstep : ∀ s a t, I s → ok s a → step s a = some t →
      I t ∧ potential t + cost a ≤ potential s + gain a)
    {s u : S} {as : List A} (hs : I s) (h : PathIf step ok s as u) :
    potential u + (as.map cost).sum ≤ potential s + (as.map gain).sum := by
  induction h with
  | nil s => exact Nat.le_refl _
  | cons hok h _ ih =>
    obtain ⟨ht, hle⟩ := hstep _ _ _ hs hok h
    have hrest := ih ht
    rw [List.map_cons, List.map_cons, List.sum_cons, List.sum_cons]
    omega

theorem PathIf.of_execIf [∀ s a, Decidable (ok s a)] {as : List A} {s u : S}
    (h : execIf step ok as s = some u) : PathIf step ok s as u := by
  induction as generalizing s with
  | nil =>
    rw [execIf, Option.some.injEq] at h
    exact h ▸ .nil s
  | cons a as ih =>
    rw [execIf] at h
    split at h
    · rename_i hok
      obtain ⟨t, ht, hrest⟩ := Option.bind_eq_some_iff.mp h
      exact .cons hok ht (ih hrest)
    · simp at h

end Reasoning.Run
