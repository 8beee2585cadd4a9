import Mathlib.Algebra.BigOperators.Group.Finset.Piecewise
import Mathlib.Algebra.Order.BigOperators.Group.Finset
import Mathlib.Algebra.Ring.Nat

/-!
# Bounds on a count spread over indices

`SumLe f n` says that `f` adds up to at most `n` over any finite set of indices.  It states a bound
on "everybody together" without naming the set of everybody, which may be infinite.
-/

namespace Reasoning

variable {P : Type*} {f g : P → ℕ} {n m : ℕ}

/-- `f` adds up to at most `n`, over however many indices. -/
def SumLe (f : P → ℕ) (n : ℕ) : Prop :=
  ∀ F : Finset P, ∑ p ∈ F, f p ≤ n

theorem SumLe.mono (h : SumLe f n) (hfg : ∀ p, g p ≤ f p) (hnm : n ≤ m) : SumLe g m := by
  intro F
  calc ∑ p ∈ F, g p ≤ ∑ p ∈ F, f p := Finset.sum_le_sum fun p _ => hfg p
    _ ≤ n := h F
    _ ≤ m := hnm

theorem SumLe.zero (n : ℕ) : SumLe (fun _ : P => 0) n := by
  intro F
  simp

theorem SumLe.apply_le (h : SumLe f n) (p : P) : f p ≤ n := by
  simpa using h {p}

variable [DecidableEq P]

/-- Two indices share the bound. -/
theorem SumLe.pair_le (h : SumLe f n) {p q : P} (hpq : p ≠ q) : f p + f q ≤ n := by
  have hF := h {p, q}
  rwa [Finset.sum_pair hpq] at hF

/-- One index may count one more when the bound does. -/
theorem SumLe.add_one (h : SumLe f n) (p : P) (hp : g p ≤ f p + 1)
    (hne : ∀ q, q ≠ p → g q ≤ f q) : SumLe g (n + 1) := by
  intro F
  have hle : ∀ q ∈ F, g q ≤ f q + if q = p then 1 else 0 := by
    intro q _
    split
    · rename_i hq
      exact hq ▸ hp
    · rename_i hq
      exact hne q hq
  have hone : (∑ q ∈ F, if q = p then 1 else 0) ≤ 1 := by
    rw [Finset.sum_ite_eq']
    split <;> omega
  have hsum := Finset.sum_le_sum hle
  rw [Finset.sum_add_distrib] at hsum
  have hF := h F
  omega

/-- The bound drops by one with an index that counts one less. -/
theorem SumLe.sub_one (h : SumLe f n) (p : P) (hp : g p + 1 ≤ f p)
    (hne : ∀ q, q ≠ p → g q ≤ f q) : SumLe g (n - 1) := by
  intro F
  -- `p` itself has to be in the set for its count to be seen to drop
  have hle : ∀ q ∈ insert p F, (g q + if q = p then 1 else 0) ≤ f q := by
    intro q _
    split
    · rename_i hq
      exact hq ▸ hp
    · rename_i hq
      exact hne q hq
  have hone : (∑ q ∈ insert p F, if q = p then 1 else 0) = 1 := by
    rw [Finset.sum_ite_eq', if_pos (Finset.mem_insert_self p F)]
  have hsum := Finset.sum_le_sum hle
  rw [Finset.sum_add_distrib, hone] at hsum
  have hsub : ∑ q ∈ F, g q ≤ ∑ q ∈ insert p F, g q :=
    Finset.sum_le_sum_of_subset (Finset.subset_insert p F)
  have hF := h (insert p F)
  omega

/-- One index with its own count, and a finite set of others counting one each. -/
theorem SumLe.of_indicator (p : P) {k : ℕ} {T : Finset P}
    (h : ∀ q, f q ≤ (if q = p then k else 0) + if q ∈ T then 1 else 0) :
    SumLe f (k + T.card) := by
  intro F
  have hone : (∑ q ∈ F, if q = p then k else 0) ≤ k := by
    rw [Finset.sum_ite_eq']
    split <;> omega
  have hset : (∑ q ∈ F, if q ∈ T then 1 else 0) ≤ T.card := by
    rw [← Finset.sum_filter, ← Finset.card_eq_sum_ones]
    exact Finset.card_le_card fun q hq => (Finset.mem_filter.mp hq).2
  calc ∑ q ∈ F, f q
      ≤ ∑ q ∈ F, ((if q = p then k else 0) + if q ∈ T then 1 else 0) :=
        Finset.sum_le_sum fun q _ => h q
    _ = (∑ q ∈ F, if q = p then k else 0) + ∑ q ∈ F, if q ∈ T then 1 else 0 :=
        Finset.sum_add_distrib
    _ ≤ k + T.card := by omega

/-! ## Counting a list by a key -/

theorem sum_map_ite (a : P) (ids : List P) :
    (ids.map fun i => if a = i then 1 else 0).sum = ids.count a := by
  induction ids with
  | nil => rfl
  | cons i ids ih =>
    rw [List.map_cons, List.sum_cons, ih, List.count_cons, add_comm]
    by_cases hi : a = i
    · simp [hi]
    · simp [hi, Ne.symm hi]

/-- A list is as long as its parts are together, when every member's key is among `ids`. -/
theorem sum_map_countP {Q : Type*} (f : Q → P) {ids : List P} (hids : ids.Nodup) {l : List Q}
    (h : ∀ x ∈ l, f x ∈ ids) : (ids.map fun i => l.countP (f · = i)).sum = l.length := by
  induction l with
  | nil => simp
  | cons x l ih =>
    have htail := ih fun y hy => h y (List.mem_cons_of_mem x hy)
    have hone : (ids.map fun i => if f x = i then 1 else 0).sum = 1 := by
      rw [sum_map_ite]
      exact List.count_eq_one_of_mem hids (h x List.mem_cons_self)
    simp only [List.countP_cons, decide_eq_true_eq, List.sum_map_add, htail, hone,
      List.length_cons]

/-- The first member that answers to `f`, and the rest of the list. -/
theorem perm_cons_eraseP {Q : Type*} {f : Q → Bool} {l : List Q} {a : Q}
    (h : l.find? f = some a) : l.Perm (a :: l.eraseP f) := by
  induction l with
  | nil => simp at h
  | cons x l ih =>
    by_cases hx : f x = true
    · rw [List.find?_cons_of_pos hx, Option.some.injEq] at h
      rw [List.eraseP_cons_of_pos hx, h]
    · rw [List.find?_cons_of_neg hx] at h
      rw [List.eraseP_cons_of_neg hx]
      exact ((ih h).cons x).trans (.swap a x _)

end Reasoning
