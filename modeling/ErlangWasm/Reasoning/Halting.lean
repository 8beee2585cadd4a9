import Mathlib.Data.Nat.Notation
import Mathlib.Logic.Basic

/-!
# Machines that may run forever

A deterministic machine is a function that gives the next state or an answer.  It halts when some
number of steps gives an answer; a set of states that each lead on into the set holds none that
halts.
-/

namespace Reasoning.Halting

variable {S A : Type*}

/-- The answer within some number of steps. -/
def runFor (step : S → S ⊕ A) : ℕ → S → Option A
  | 0, _ => none
  | n + 1, s =>
      match step s with
      | .inl s' => runFor step n s'
      | .inr a => some a

/-- The machine answers `a`. -/
def Answers (step : S → S ⊕ A) (s : S) (a : A) : Prop := ∃ n, runFor step n s = some a

/-- The machine reaches an answer. -/
def Halts (step : S → S ⊕ A) (s : S) : Prop := ∃ a, Answers step s a

/-- Some steps lead from one state to the other. -/
inductive Leads (step : S → S ⊕ A) : S → S → Prop
  | refl (s : S) : Leads step s s
  | head {s t u : S} (h : step s = .inl t) (hrest : Leads step t u) : Leads step s u

variable {step : S → S ⊕ A} {s t u : S} {a b : A}

theorem Leads.trans (h : Leads step s t) (h' : Leads step t u) : Leads step s u := by
  induction h with
  | refl => exact h'
  | head hstep _ ih => exact .head hstep (ih h')

theorem answers_of_step (h : step s = .inr a) : Answers step s a := ⟨1, by rw [runFor, h]⟩

theorem answers_step (h : step s = .inl t) : Answers step s a ↔ Answers step t a := by
  constructor
  · rintro ⟨n, hn⟩
    cases n with
    | zero => cases hn
    | succ n =>
      rw [runFor, h] at hn
      exact ⟨n, hn⟩
  · rintro ⟨n, hn⟩
    exact ⟨n + 1, by rw [runFor, h]; exact hn⟩

theorem Leads.answers (h : Leads step s t) : Answers step s a ↔ Answers step t a := by
  induction h with
  | refl => exact Iff.rfl
  | head hstep _ ih => exact (answers_step hstep).trans ih

theorem Leads.halts (h : Leads step s t) : Halts step s ↔ Halts step t :=
  exists_congr fun _ => h.answers

theorem Answers.unique (h : Answers step s a) (h' : Answers step s b) : a = b := by
  obtain ⟨n, hn⟩ := h
  obtain ⟨k, hk⟩ := h'
  induction n generalizing s k with
  | zero => cases hn
  | succ n ih =>
    cases k with
    | zero => cases hk
    | succ k =>
      rw [runFor] at hn hk
      cases hs : step s with
      | inl t =>
        rw [hs] at hn hk
        exact ih hn k hk
      | inr c =>
        rw [hs] at hn hk
        cases hn
        cases hk
        rfl

/-- An answer has what every answering step of states with the invariant gives. -/
theorem Answers.invariant {I : S → Prop} {P : A → Prop} (h : Answers step s a) (hs : I s)
    (hnext : ∀ s t, I s → step s = .inl t → I t) (hdone : ∀ s a, I s → step s = .inr a → P a) :
    P a := by
  obtain ⟨n, hn⟩ := h
  induction n generalizing s with
  | zero => cases hn
  | succ n ih =>
    rw [runFor] at hn
    cases hstep : step s with
    | inl t =>
      rw [hstep] at hn
      exact ih (hnext s t hs hstep) hn
    | inr c =>
      rw [hstep] at hn
      cases hn
      exact hdone s _ hs hstep

/-- States that each lead on, by one step at least, to another of them. -/
theorem not_halts_of_progress {I : S → Prop} (hs : I s)
    (hprogress : ∀ s, I s → ∃ t u, step s = .inl t ∧ Leads step t u ∧ I u) : ¬ Halts step s := by
  rintro ⟨a, n, hn⟩
  -- by induction on the steps left: the segment to the next such state uses one up
  induction n using Nat.strongRecOn generalizing s with
  | ind n ih =>
    obtain ⟨t, u, hstep, hlead, hu⟩ := hprogress s hs
    cases n with
    | zero => cases hn
    | succ n =>
      rw [runFor, hstep] at hn
      have hshort : ∃ k ≤ n, runFor step k u = some a := by
        clear ih hprogress hstep hu hs
        induction hlead generalizing n with
        | refl => exact ⟨n, Nat.le_refl n, hn⟩
        | head h _ ihlead =>
          cases n with
          | zero => cases hn
          | succ n =>
            have hn' : runFor step (n + 1) _ = some a := hn
            rw [runFor, h] at hn'
            obtain ⟨k, hk, hrun⟩ := ihlead n hn'
            exact ⟨k, Nat.le_succ_of_le hk, hrun⟩
      obtain ⟨k, hk, hrun⟩ := hshort
      exact ih k (Nat.lt_succ_of_le hk) hu hrun

end Reasoning.Halting
