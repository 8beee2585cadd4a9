import Mathlib.Data.Set.Finite.Basic
import Mathlib.Order.WellFounded

/-!
# Computations that put questions

An `Inquiry` puts questions to an answerer that may need any amount of effort, and some of whose
questions have no answer at all.  At each bound on the effort the inquiry is a list of the
questions put so far and an outcome, `unfinished` when an answer did not come.  A `Tame` inquiry
comes to an end exactly when none of the questions it puts is endless.
-/

namespace Reasoning

inductive Outcome (ε α : Type) : Type
  | value (a : α)
  | raised (e : ε)
  | unfinished

/-- What was asked and what came of it, at each bound on the effort an answer may take. -/
def Inquiry (Q ε α : Type) : Type := ℕ → List Q × Outcome ε α

namespace Inquiry

variable {Q ε δ α β : Type}

protected def pure (a : α) : Inquiry Q ε α := fun _ => ([], .value a)

def raise (e : ε) : Inquiry Q ε α := fun _ => ([], .raised e)

/-- No more effort. -/
def stuck : Inquiry Q ε α := fun _ => ([], .unfinished)

protected def bind (x : Inquiry Q ε α) (f : α → Inquiry Q ε β) : Inquiry Q ε β := fun n =>
  match x n with
  | (asked, .value a) => (asked ++ (f a n).1, (f a n).2)
  | (asked, .raised e) => (asked, .raised e)
  | (asked, .unfinished) => (asked, .unfinished)

instance : Monad (Inquiry Q ε) where
  pure := Inquiry.pure
  bind := Inquiry.bind

/-- One question. -/
def ask (answer : ℕ → Q → Option α) (q : Q) : Inquiry Q ε α := fun n =>
  ([q], match answer n q with
    | some a => .value a
    | none => .unfinished)

/-- What failed becomes a value. -/
def capture (x : Inquiry Q ε α) (f : ε → α) : Inquiry Q δ α := fun n =>
  match x n with
  | (asked, .value a) => (asked, .value a)
  | (asked, .raised e) => (asked, .value (f e))
  | (asked, .unfinished) => (asked, .unfinished)

/-- Some amount of effort brings it to a value. -/
def Answers (x : Inquiry Q ε α) : Prop := ∃ n a, (x n).2 = .value a

/-- The question is put. -/
def Puts (x : Inquiry Q ε α) (q : Q) : Prop := ∃ n, q ∈ (x n).1

/-- The value some amount of effort brings. -/
def Gives (x : Inquiry Q ε α) (a : α) : Prop := ∃ n, (x n).2 = .value a

/-! ## Tame inquiries -/

variable (Endless : Q → Prop)

/-- An inquiry whose only way to go on for ever is through an endless question. -/
structure Tame (x : Inquiry Q ε α) : Prop where
  agree : ∀ n m, (x n).2 ≠ .unfinished → (x m).2 ≠ .unfinished → x n = x m
  hangs : ∀ n q, q ∈ (x n).1 → Endless q → ∀ m, (x m).2 = .unfinished
  ends : (∃ k, ∀ n ≥ k, ∀ q ∈ (x n).1, ¬ Endless q) →
    ∃ k r, r.2 ≠ .unfinished ∧ ∀ n ≥ k, x n = r

variable {Endless}

theorem Tame.of_const {r : List Q × Outcome ε α} (h : r.2 ≠ .unfinished) (hr : r.1 = []) :
    Tame Endless (fun _ => r : Inquiry Q ε α) where
  agree _ _ _ _ := rfl
  hangs n q hq := by rw [hr] at hq; exact absurd hq (by simp)
  ends _ := ⟨0, r, h, fun _ _ => rfl⟩

theorem Tame.pure (a : α) : Tame Endless (Pure.pure a : Inquiry Q ε α) :=
  .of_const (by simp) rfl

theorem Tame.raise (e : ε) : Tame Endless (raise e : Inquiry Q ε α) := .of_const (by simp) rfl

theorem Tame.ask {answer : ℕ → Q → Option α} {q : Q}
    (hmono : ∀ n m a, n ≤ m → answer n q = some a → answer m q = some a)
    (hanswer : (∃ n a, answer n q = some a) ↔ ¬ Endless q) :
    Tame Endless (ask answer q : Inquiry Q ε α) where
  agree n m hn hm := by
    unfold Inquiry.ask at hn hm ⊢
    cases hna : answer n q with
    | none => rw [hna] at hn; exact absurd rfl hn
    | some a =>
      cases hma : answer m q with
      | none => rw [hma] at hm; exact absurd rfl hm
      | some b =>
        have ha := hmono n (max n m) a (Nat.le_max_left n m) hna
        have hb := hmono m (max n m) b (Nat.le_max_right n m) hma
        rw [Option.some.inj (ha.symm.trans hb)]
  hangs n q' hq' hendless m := by
    obtain rfl := List.mem_singleton.mp hq'
    unfold Inquiry.ask
    cases hma : answer m q' with
    | none => rfl
    | some a => exact absurd hendless (hanswer.mp ⟨m, a, hma⟩)
  ends h := by
    obtain ⟨k, hk⟩ := h
    obtain ⟨n, a, hn⟩ := hanswer.mpr (hk k (Nat.le_refl k) q (List.mem_singleton.mpr rfl))
    refine ⟨n, ([q], .value a), by simp, ?_⟩
    intro m hm
    unfold Inquiry.ask
    rw [hmono n m a hm hn]

theorem bind_value {x : Inquiry Q ε α} {f : α → Inquiry Q ε β} {n : ℕ} {a : α}
    (h : (x n).2 = .value a) : (x >>= f) n = ((x n).1 ++ (f a n).1, (f a n).2) := by
  have hx : x n = ((x n).1, .value a) := by rw [← h]
  change Inquiry.bind x f n = _
  unfold Inquiry.bind
  rw [hx]

theorem bind_raised {x : Inquiry Q ε α} {f : α → Inquiry Q ε β} {n : ℕ} {e : ε}
    (h : (x n).2 = .raised e) : (x >>= f) n = ((x n).1, .raised e) := by
  have hx : x n = ((x n).1, .raised e) := by rw [← h]
  change Inquiry.bind x f n = _
  unfold Inquiry.bind
  rw [hx]

theorem bind_unfinished {x : Inquiry Q ε α} {f : α → Inquiry Q ε β} {n : ℕ}
    (h : (x n).2 = .unfinished) : (x >>= f) n = ((x n).1, .unfinished) := by
  have hx : x n = ((x n).1, .unfinished) := by rw [← h]
  change Inquiry.bind x f n = _
  unfold Inquiry.bind
  rw [hx]

/-- What the first part asked, the whole asked. -/
theorem mem_bind_left {x : Inquiry Q ε α} {f : α → Inquiry Q ε β} {n : ℕ} {q : Q}
    (h : q ∈ (x n).1) : q ∈ ((x >>= f) n).1 := by
  cases hx : (x n).2 with
  | value a => rw [bind_value hx]; exact List.mem_append_left _ h
  | raised e => rw [bind_raised hx]; exact h
  | unfinished => rw [bind_unfinished hx]; exact h

theorem Tame.bind {x : Inquiry Q ε α} {f : α → Inquiry Q ε β} (hx : Tame Endless x)
    (hf : ∀ a, x.Gives a → Tame Endless (f a)) : Tame Endless (x >>= f) where
  agree n m hn hm := by
    have hxn : (x n).2 ≠ .unfinished := fun h => hn (by rw [bind_unfinished h])
    have hxm : (x m).2 ≠ .unfinished := fun h => hm (by rw [bind_unfinished h])
    have heq := hx.agree n m hxn hxm
    cases ha : (x n).2 with
    | value a =>
      have ha' : (x m).2 = .value a := by rw [← heq, ha]
      rw [bind_value ha] at hn ⊢
      rw [bind_value ha'] at hm ⊢
      rw [heq, (hf a ⟨n, ha⟩).agree n m hn hm]
    | raised e =>
      have ha' : (x m).2 = .raised e := by rw [← heq, ha]
      rw [bind_raised ha, bind_raised ha', heq]
    | unfinished => exact absurd ha hxn
  hangs n q hq hendless m := by
    by_cases hleft : q ∈ (x n).1
    · rw [bind_unfinished (hx.hangs n q hleft hendless m)]
    · cases ha : (x n).2 with
      | value a =>
        rw [bind_value ha] at hq
        have hright := (List.mem_append.mp hq).resolve_left hleft
        by_cases hxm : (x m).2 = .unfinished
        · rw [bind_unfinished hxm]
        · have ha' : (x m).2 = .value a := by
            rw [← hx.agree n m (by rw [ha]; simp) hxm, ha]
          rw [bind_value ha']
          exact (hf a ⟨n, ha⟩).hangs n q hright hendless m
      | raised e => rw [bind_raised ha] at hq; exact absurd hq hleft
      | unfinished => rw [bind_unfinished ha] at hq; exact absurd hq hleft
  ends h := by
    obtain ⟨k, hk⟩ := h
    obtain ⟨k₁, r, hr, hxr⟩ := hx.ends ⟨k, fun n hn q hq => hk n hn q (mem_bind_left hq)⟩
    cases ha : r.2 with
    | value a =>
      have hxa : ∀ n ≥ k₁, (x n).2 = .value a := fun n hn => by rw [hxr n hn, ha]
      obtain ⟨k₂, r₂, hr₂, hfr⟩ := (hf a ⟨k₁, hxa k₁ (Nat.le_refl _)⟩).ends ⟨max k k₁, by
        intro n hn q hq
        apply hk n (Nat.le_trans (Nat.le_max_left _ _) hn) q
        rw [bind_value (hxa n (Nat.le_trans (Nat.le_max_right _ _) hn))]
        exact List.mem_append_right _ hq⟩
      refine ⟨max k₁ k₂, (r.1 ++ r₂.1, r₂.2), hr₂, ?_⟩
      intro n hn
      have hn₁ : n ≥ k₁ := Nat.le_trans (Nat.le_max_left _ _) hn
      rw [bind_value (hxa n hn₁), hxr n hn₁, hfr n (Nat.le_trans (Nat.le_max_right _ _) hn)]
    | raised e =>
      refine ⟨k₁, (r.1, .raised e), by simp, ?_⟩
      intro n hn
      rw [bind_raised (by rw [hxr n hn, ha]), hxr n hn]
    | unfinished => exact absurd ha hr

theorem Tame.capture {x : Inquiry Q ε α} {f : ε → α} (hx : Tame Endless x) :
    Tame Endless (x.capture f : Inquiry Q δ α) where
  agree n m hn hm := by
    unfold Inquiry.capture at hn hm ⊢
    have h : x n = x m := hx.agree n m
      (fun h => by
        rw [show x n = ((x n).1, .unfinished) by rw [← h]] at hn
        exact hn rfl)
      (fun h => by
        rw [show x m = ((x m).1, .unfinished) by rw [← h]] at hm
        exact hm rfl)
    rw [h]
  hangs n q hq hendless m := by
    have hmem : q ∈ (x n).1 := by
      unfold Inquiry.capture at hq
      split at hq <;> simp_all
    have hm := hx.hangs n q hmem hendless m
    unfold Inquiry.capture
    rw [show x m = ((x m).1, .unfinished) by rw [← hm]]
  ends h := by
    obtain ⟨k, hk⟩ := h
    obtain ⟨k₁, r, hr, hxr⟩ := hx.ends ⟨k, by
      intro n hn q hq
      apply hk n hn q
      unfold Inquiry.capture
      split <;> simp_all⟩
    refine ⟨k₁, x.capture f k₁, ?_, ?_⟩
    · unfold Inquiry.capture
      rw [hxr k₁ (Nat.le_refl _)]
      split <;> simp_all
    · intro n hn
      unfold Inquiry.capture
      rw [hxr n hn, hxr k₁ (Nat.le_refl _)]

/-- A tame inquiry ends exactly when it puts no endless question. -/
theorem Tame.ends_iff {x : Inquiry Q ε α} (hx : Tame Endless x) :
    (∃ n, (x n).2 ≠ .unfinished) ↔ ∀ q, x.Puts q → ¬ Endless q := by
  constructor
  · rintro ⟨n, hn⟩ q ⟨m, hq⟩ hendless
    exact hn (hx.hangs m q hq hendless n)
  · intro h
    obtain ⟨k, r, hr, hxr⟩ := hx.ends ⟨0, fun n _ q hq => h q ⟨n, hq⟩⟩
    exact ⟨k, by rw [hxr k (Nat.le_refl k)]; exact hr⟩

/-! ## Inquiries that raise nothing -/

def Calm (x : Inquiry Q ε α) : Prop := ∀ n e, (x n).2 ≠ .raised e

theorem Calm.pure (a : α) : (Pure.pure a : Inquiry Q ε α).Calm := fun _ _ h => by cases h

theorem Calm.ask (answer : ℕ → Q → Option α) (q : Q) : (ask answer q : Inquiry Q ε α).Calm := by
  intro n e h
  unfold Inquiry.ask at h
  cases ha : answer n q with
  | none | some a => rw [ha] at h; cases h

theorem Calm.capture (x : Inquiry Q ε α) (f : ε → α) : (x.capture f : Inquiry Q δ α).Calm := by
  intro n e h
  unfold Inquiry.capture at h
  split at h <;> cases h

theorem Calm.bind {x : Inquiry Q ε α} {f : α → Inquiry Q ε β} (hx : x.Calm)
    (hf : ∀ a, (f a).Calm) : (x >>= f).Calm := by
  intro n e h
  cases ha : (x n).2 with
  | value a =>
    rw [bind_value ha] at h
    exact hf a n e h
  | raised e' => exact hx n e' ha
  | unfinished =>
    rw [bind_unfinished ha] at h
    cases h

theorem Tame.answers_iff {x : Inquiry Q ε α} (hx : Tame Endless x) (hcalm : x.Calm) :
    x.Answers ↔ ∀ q, x.Puts q → ¬ Endless q := by
  rw [← hx.ends_iff]
  constructor
  · rintro ⟨n, a, ha⟩
    exact ⟨n, by rw [ha]; simp⟩
  · rintro ⟨n, hn⟩
    cases ha : (x n).2 with
    | value a => exact ⟨n, a, ha⟩
    | raised e => exact absurd ha (hcalm n e)
    | unfinished => exact absurd ha hn

/-! ## What a tame inquiry gives -/

theorem Gives.of_pure {a b : α} (h : (Pure.pure a : Inquiry Q ε α).Gives b) : b = a := by
  obtain ⟨n, hn⟩ := h
  cases hn
  rfl

theorem Gives.of_bind {x : Inquiry Q ε α} {f : α → Inquiry Q ε β} {b : β}
    (h : (x >>= f).Gives b) : ∃ a, x.Gives a ∧ (f a).Gives b := by
  obtain ⟨n, hn⟩ := h
  cases ha : (x n).2 with
  | value a =>
    rw [bind_value ha] at hn
    exact ⟨a, ⟨n, ha⟩, n, hn⟩
  | raised e =>
    rw [bind_raised ha] at hn
    cases hn
  | unfinished =>
    rw [bind_unfinished ha] at hn
    cases hn

variable (Endless) in
/-- Tame, and every value it gives has the property. -/
structure Yields (P : α → Prop) (x : Inquiry Q ε α) : Prop where
  tame : Tame Endless x
  given : ∀ a, x.Gives a → P a

variable {P P' : α → Prop} {R : β → Prop}

theorem Yields.pure {a : α} (h : P a) : Yields Endless P (Pure.pure a : Inquiry Q ε α) where
  tame := .pure a
  given b hb := by rw [hb.of_pure]; exact h

theorem Yields.raise (e : ε) : Yields Endless P (raise e : Inquiry Q ε α) where
  tame := .raise e
  given a ha := by
    obtain ⟨n, hn⟩ := ha
    cases hn

theorem Yields.bind {x : Inquiry Q ε α} {f : α → Inquiry Q ε β} (hx : Yields Endless P x)
    (hf : ∀ a, P a → Yields Endless R (f a)) : Yields Endless R (x >>= f) where
  tame := hx.tame.bind fun a ha => (hf a (hx.given a ha)).tame
  given b hb := by
    obtain ⟨a, ha, hb⟩ := hb.of_bind
    exact (hf a (hx.given a ha)).given b hb

theorem Yields.mono {x : Inquiry Q ε α} (hx : Yields Endless P x) (h : ∀ a, P a → P' a) :
    Yields Endless P' x := ⟨hx.tame, fun a ha => h a (hx.given a ha)⟩

theorem Tame.yields {x : Inquiry Q ε α} (hx : Tame Endless x) :
    Yields Endless (fun _ => True) x := ⟨hx, fun _ _ => trivial⟩

end Inquiry

end Reasoning
