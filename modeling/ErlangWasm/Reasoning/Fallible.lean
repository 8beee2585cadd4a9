import Mathlib.Data.List.Forall2

/-!
# Computations that may fail

Inversion of a computation in `Except` that gave a result.
-/

namespace Reasoning.Fallible

variable {ε α β : Type}

theorem bind_eq_ok {x : Except ε α} {f : α → Except ε β} {b : β} :
    x >>= f = .ok b ↔ ∃ a, x = .ok a ∧ f a = .ok b := by
  cases x with
  | error e =>
    constructor
    · intro h
      cases h
    · rintro ⟨a, ha, -⟩
      cases ha
  | ok a =>
    constructor
    · intro h
      exact ⟨a, rfl, h⟩
    · rintro ⟨a', ha, h⟩
      cases ha
      exact h

/-- A list goes through when each of its elements does. -/
theorem mapM_eq_ok {f : α → Except ε β} {as : List α} {bs : List β} :
    as.mapM f = .ok bs ↔ List.Forall₂ (fun a b => f a = .ok b) as bs := by
  induction as generalizing bs with
  | nil =>
    rw [List.mapM_nil, List.forall₂_nil_left_iff]
    constructor
    · intro h
      cases h
      rfl
    · rintro rfl
      rfl
  | cons a as ih =>
    rw [List.mapM_cons, bind_eq_ok, List.forall₂_cons_left_iff]
    apply exists_congr
    intro b
    constructor
    · rintro ⟨hb, h⟩
      obtain ⟨rest, hrest, h⟩ := bind_eq_ok.mp h
      cases h
      exact ⟨rest, hb, ih.mp hrest, rfl⟩
    · rintro ⟨rest, hb, hrest, rfl⟩
      exact ⟨hb, bind_eq_ok.mpr ⟨rest, ih.mpr hrest, rfl⟩⟩

/-- A list whose elements all go through does. -/
theorem exists_mapM {f : α → Except ε β} {as : List α} (h : ∀ a ∈ as, ∃ b, f a = .ok b) :
    ∃ bs, as.mapM f = .ok bs := by
  induction as with
  | nil => exact ⟨[], rfl⟩
  | cons a as ih =>
    obtain ⟨b, hb⟩ := h a (by simp)
    obtain ⟨bs, hbs⟩ := ih fun c hc => h c (by simp [hc])
    exact ⟨b :: bs, mapM_eq_ok.mpr (.cons hb (mapM_eq_ok.mp hbs))⟩

/-- What a list that goes through in `Option` holds, by index. -/
theorem get_of_mapM {f : α → Option β} {as : List α} {bs : List β} (h : as.mapM f = some bs) :
    bs.length = as.length ∧ ∀ (j : ℕ) (a : α), as[j]? = some a → bs[j]? = f a := by
  induction as generalizing bs with
  | nil =>
    cases h
    exact ⟨rfl, fun j a hj => by simp at hj⟩
  | cons a as ih =>
    rw [List.mapM_cons] at h
    cases ha : f a with
    | none =>
      rw [ha] at h
      cases h
    | some b =>
      cases hrest : as.mapM f with
      | none =>
        rw [ha, hrest] at h
        cases h
      | some rest =>
        rw [ha, hrest] at h
        cases h
        obtain ⟨hlen, hget⟩ := ih hrest
        refine ⟨congrArg (· + 1) hlen, ?_⟩
        intro j c hj
        cases j with
        | zero =>
          cases hj
          exact ha.symm
        | succ j => exact hget j c hj

/-! ## Lists in `Option` -/

section Options

variable {f g : α → Option β} {as : List α} {bs : List β}

theorem mapM_cons_eq_some {a : α} : (a :: as).mapM f = some bs ↔
    ∃ b rest, f a = some b ∧ as.mapM f = some rest ∧ bs = b :: rest := by
  rw [List.mapM_cons]
  cases ha : f a with
  | none => simp
  | some b =>
    cases hrest : as.mapM f with
    | none => simp
    | some rest =>
      constructor
      · intro h
        cases h
        exact ⟨b, rest, rfl, rfl, rfl⟩
      · rintro ⟨b', rest', hb, hrest', rfl⟩
        cases hb
        cases hrest'
        rfl

theorem mem_of_mapM {b : β} (h : as.mapM f = some bs) (hb : b ∈ bs) :
    ∃ a ∈ as, f a = some b := by
  induction as generalizing bs with
  | nil =>
    cases h
    cases hb
  | cons a as ih =>
    obtain ⟨b', rest, ha, hrest, rfl⟩ := mapM_cons_eq_some.mp h
    rcases List.mem_cons.mp hb with rfl | hb
    · exact ⟨a, List.mem_cons_self, ha⟩
    · obtain ⟨a', ha', hb⟩ := ih hrest hb
      exact ⟨a', List.mem_cons_of_mem _ ha', hb⟩

/-- What answers at least as often maps a list at least as often. -/
theorem mapM_mono (h : ∀ a ∈ as, ∀ b, f a = some b → g a = some b) (hmap : as.mapM f = some bs) :
    as.mapM g = some bs := by
  induction as generalizing bs with
  | nil =>
    cases hmap
    rfl
  | cons a as ih =>
    obtain ⟨b, rest, hb, hrest, rfl⟩ := mapM_cons_eq_some.mp hmap
    exact mapM_cons_eq_some.mpr
      ⟨b, rest, h a (by simp) b hb, ih (fun c hc => h c (by simp [hc])) hrest, rfl⟩

theorem mapM_eq_none_of_mem {a : α} (ha : a ∈ as) (hnone : f a = none) : as.mapM f = none := by
  induction as with
  | nil => cases ha
  | cons c as ih =>
    apply Option.eq_none_iff_forall_ne_some.mpr
    intro bs hbs
    obtain ⟨b, rest, hb, hrest, -⟩ := mapM_cons_eq_some.mp hbs
    obtain rfl | ha := List.mem_cons.mp ha
    · rw [hnone] at hb
      cases hb
    · rw [ih ha] at hrest
      cases hrest

/-- Elements that each go through given enough go through together. -/
theorem exists_mapM_of_mono {h : ℕ → α → Option β}
    (hmono : ∀ n m a b, n ≤ m → h n a = some b → h m a = some b)
    (hall : ∀ a ∈ as, ∃ n b, h n a = some b) : ∃ n bs, as.mapM (h n) = some bs := by
  induction as with
  | nil => exact ⟨0, [], rfl⟩
  | cons a as ih =>
    obtain ⟨n, b, hb⟩ := hall a (by simp)
    obtain ⟨m, rest, hrest⟩ := ih fun c hc => hall c (by simp [hc])
    refine ⟨max n m, b :: rest, mapM_cons_eq_some.mpr ⟨b, rest, ?_, ?_, rfl⟩⟩
    · exact hmono n _ a b (Nat.le_max_left n m) hb
    · exact mapM_mono (fun c _ d => hmono m _ c d (Nat.le_max_right n m)) hrest

end Options

/-! ## Paired lists -/

theorem forall₂_mem_left {R : α → β → Prop} {as : List α} {bs : List β} (h : List.Forall₂ R as bs)
    {a : α} (ha : a ∈ as) : ∃ b ∈ bs, R a b := by
  induction h with
  | nil => cases ha
  | cons hr _ ih =>
    rcases List.mem_cons.mp ha with rfl | ha
    · exact ⟨_, by simp, hr⟩
    · obtain ⟨b, hb, hrb⟩ := ih ha
      exact ⟨b, by simp [hb], hrb⟩

theorem forall₂_mem_right {R : α → β → Prop} {as : List α} {bs : List β} (h : List.Forall₂ R as bs)
    {b : β} (hb : b ∈ bs) : ∃ a ∈ as, R a b := forall₂_mem_left h.flip hb

end Reasoning.Fallible
