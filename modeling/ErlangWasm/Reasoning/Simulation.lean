import ErlangWasm.Reasoning.Halting

/-!
# Machines that go in step

One machine follows another when each of its steps is some steps of the other, seen from outside as
one, or none while something runs out.  The two then answer the same, and are seen to come to the
same.
-/

namespace Reasoning.Simulation

open Reasoning.Halting

variable {S T A O : Type*}

/-- Some steps, one at least; what is on the way is seen as the first state is. -/
inductive Advances (step : T → T ⊕ A) (obs : T → O) : T → T → Prop
  | last {t u : T} (h : step t = .inl u) : Advances step obs t u
  | more {t u v : T} (h : step t = .inl u) (hobs : obs u = obs t) (hrest : Advances step obs u v) :
      Advances step obs t v

/-- Some steps to an answer; what is on the way is seen as the first state is. -/
inductive Finishes (step : T → T ⊕ A) (obs : T → O) : T → A → Prop
  | last {t : T} {a : A} (h : step t = .inr a) : Finishes step obs t a
  | more {t u : T} {a : A} (h : step t = .inl u) (hobs : obs u = obs t)
      (hrest : Finishes step obs u a) : Finishes step obs t a

variable {step : T → T ⊕ A} {obs : T → O} {t u v : T} {a : A} {n : ℕ}

theorem Advances.leads (h : Advances step obs t u) : Leads step t u := by
  induction h with
  | last h => exact .head h (.refl _)
  | more h _ _ ih => exact .head h ih

theorem Finishes.answers (h : Finishes step obs t a) : Answers step t a := by
  induction h with
  | last h => exact answers_of_step h
  | more h _ _ ih => exact (answers_step h).mpr ih

/-- The state after some number of steps. -/
def after (step : T → T ⊕ A) : ℕ → T → Option T
  | 0, t => some t
  | n + 1, t =>
      match step t with
      | .inl u => after step n u
      | .inr _ => none

theorem leads_iff_after : Leads step t u ↔ ∃ n, after step n t = some u := by
  constructor
  · intro h
    induction h with
    | refl t => exact ⟨0, rfl⟩
    | head h _ ih =>
      obtain ⟨n, hn⟩ := ih
      exact ⟨n + 1, by rw [after, h]; exact hn⟩
  · rintro ⟨n, hn⟩
    induction n generalizing t with
    | zero =>
      cases hn
      exact .refl _
    | succ n ih =>
      rw [after] at hn
      cases h : step t with
      | inl v =>
        rw [h] at hn
        exact .head h (ih hn)
      | inr a =>
        rw [h] at hn
        cases hn

/-- What a run comes to before it has advanced is seen as where it began. -/
theorem Advances.split (h : Advances step obs t v) (hn : after step n t = some u) :
    obs u = obs t ∨ ∃ k < n, after step k v = some u := by
  induction h generalizing n with
  | last h =>
    cases n with
    | zero =>
      cases hn
      exact .inl rfl
    | succ n =>
      rw [after, h] at hn
      exact .inr ⟨n, Nat.lt_succ_self n, hn⟩
  | more h hobs _ ih =>
    cases n with
    | zero =>
      cases hn
      exact .inl rfl
    | succ n =>
      rw [after, h] at hn
      rcases ih hn with heq | ⟨k, hk, hrest⟩
      · exact .inl (heq.trans hobs)
      · exact .inr ⟨k, Nat.lt_succ_of_lt hk, hrest⟩

theorem Finishes.observed (h : Finishes step obs t a) (hn : after step n t = some u) :
    obs u = obs t := by
  induction h generalizing n with
  | last h =>
    cases n with
    | zero =>
      cases hn
      rfl
    | succ n =>
      rw [after, h] at hn
      cases hn
  | more h hobs _ ih =>
    cases n with
    | zero =>
      cases hn
      rfl
    | succ n =>
      rw [after, h] at hn
      exact (ih hn).trans hobs

theorem Advances.runFor (h : Advances step obs t u) (hn : runFor step n t = some a) :
    ∃ k < n, Halting.runFor step k u = some a := by
  induction h generalizing n with
  | last h =>
    cases n with
    | zero => cases hn
    | succ n =>
      rw [Halting.runFor, h] at hn
      exact ⟨n, Nat.lt_succ_self n, hn⟩
  | more h _ _ ih =>
    cases n with
    | zero => cases hn
    | succ n =>
      rw [Halting.runFor, h] at hn
      obtain ⟨k, hk, hrest⟩ := ih hn
      exact ⟨k, Nat.lt_succ_of_lt hk, hrest⟩

/-- The first machine, in states related by `R`, follows the second; `idle` runs out while only the
first steps. -/
structure Follows (step₁ : S → S ⊕ A) (step₂ : T → T ⊕ A) (obs₁ : S → O) (obs₂ : T → O)
    (R : S → T → Prop) (idle : S → ℕ) : Prop where
  observed : ∀ {s t}, R s t → obs₁ s = obs₂ t
  answer : ∀ {s t a}, R s t → step₁ s = .inr a → Finishes step₂ obs₂ t a
  next : ∀ {s t s'}, R s t → step₁ s = .inl s' →
    R s' t ∧ idle s' < idle s ∨ ∃ t', R s' t' ∧ Advances step₂ obs₂ t t'

variable {step₁ : S → S ⊕ A} {step₂ : T → T ⊕ A} {obs₁ : S → O} {obs₂ : T → O} {R : S → T → Prop}
  {idle : S → ℕ} {s : S} {o : O}

theorem Follows.answers_iff (hf : Follows step₁ step₂ obs₁ obs₂ R idle) (h : R s t) :
    Answers step₁ s a ↔ Answers step₂ t a := by
  constructor
  · rintro ⟨n, hn⟩
    induction n generalizing s t with
    | zero => cases hn
    | succ n ih =>
      rw [runFor] at hn
      cases hs : step₁ s with
      | inr b =>
        rw [hs] at hn
        cases hn
        exact (hf.answer h hs).answers
      | inl s' =>
        rw [hs] at hn
        rcases hf.next h hs with ⟨h', -⟩ | ⟨t', h', hadvance⟩
        · exact ih h' hn
        · exact hadvance.leads.answers.mpr (ih h' hn)
  · rintro ⟨n, hn⟩
    -- by induction on what is left to the second, and then on what can be idle in the first
    induction n using Nat.strongRecOn generalizing s t with
    | ind n ih =>
      induction hidle : idle s using Nat.strongRecOn generalizing s with
      | ind m ihidle =>
        cases hs : step₁ s with
        | inr b =>
          obtain rfl := Answers.unique (hf.answer h hs).answers ⟨n, hn⟩
          exact answers_of_step hs
        | inl s' =>
          rw [answers_step hs]
          rcases hf.next h hs with ⟨h', hless⟩ | ⟨t', h', hadvance⟩
          · exact ihidle _ (hidle ▸ hless) h' rfl
          · obtain ⟨k, hk, hrest⟩ := hadvance.runFor hn
            exact ih k hk h' hrest

/-- Whatever one is seen to come to, the other is. -/
theorem Follows.comes_iff (hf : Follows step₁ step₂ obs₁ obs₂ R idle) (h : R s t) :
    (∃ s', Leads step₁ s s' ∧ obs₁ s' = o) ↔ ∃ t', Leads step₂ t t' ∧ obs₂ t' = o := by
  constructor
  · rintro ⟨s', hlead, hobs⟩
    induction hlead generalizing t with
    | refl s => exact ⟨t, .refl t, (hf.observed h).symm.trans hobs⟩
    | head hs _ ih =>
      rcases hf.next h hs with ⟨h', -⟩ | ⟨t', h', hadvance⟩
      · exact ih h' hobs
      · obtain ⟨u, hu, hou⟩ := ih h' hobs
        exact ⟨u, hadvance.leads.trans hu, hou⟩
  · rintro ⟨u, hlead, hobs⟩
    obtain ⟨n, hn⟩ := leads_iff_after.mp hlead
    clear hlead
    induction n using Nat.strongRecOn generalizing s t with
    | ind n ih =>
      induction hidle : idle s using Nat.strongRecOn generalizing s with
      | ind m ihidle =>
        cases hs : step₁ s with
        | inr b =>
          have heq := (hf.answer h hs).observed hn
          exact ⟨s, .refl s, ((hf.observed h).trans heq.symm).trans hobs⟩
        | inl s' =>
          have hback : (∃ s'', Leads step₁ s' s'' ∧ obs₁ s'' = o) →
              ∃ s'', Leads step₁ s s'' ∧ obs₁ s'' = o :=
            fun ⟨s'', hlead, hobs⟩ => ⟨s'', .head hs hlead, hobs⟩
          rcases hf.next h hs with ⟨h', hless⟩ | ⟨t', h', hadvance⟩
          · exact hback (ihidle _ (hidle ▸ hless) h' rfl)
          · rcases hadvance.split hn with heq | ⟨k, hk, hrest⟩
            · exact ⟨s, .refl s, ((hf.observed h).trans heq.symm).trans hobs⟩
            · exact hback (ih k hk h' hrest)

end Reasoning.Simulation
