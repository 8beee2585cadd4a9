import Mathlib.Data.List.AList
import Mathlib.Algebra.Order.BigOperators.Group.Finset

/-!
# Finite tables and totals over their rows

A table is an association list with one row a key.  `total f t` adds `f key value` over the rows;
the lemmas say how inserting and erasing one row move it, so that a running summary of a table can
be compared with the table itself.
-/

namespace Reasoning

/-- A finite map from `K` to `V`: at most one row a key. -/
abbrev Table (K V : Type*) := AList (fun _ : K => V)

namespace Table

variable {K V M : Type*} [AddCommMonoid M]

/-- The sum of `f key value` over the rows of `t`. -/
def total (f : K → V → M) (t : Table K V) : M :=
  (t.entries.map fun e => f e.1 e.2).sum

variable [DecidableEq K]

theorem sum_kerase (f : K → V → M) (l : List (Sigma fun _ : K => V)) (k : K) (v : V)
    (h : l.dlookup k = some v) :
    (l.map fun e => f e.1 e.2).sum = f k v + ((l.kerase k).map fun e => f e.1 e.2).sum := by
  induction l with
  | nil => simp at h
  | cons e l ih =>
    obtain ⟨k', v'⟩ := e
    by_cases hk : k = k'
    · subst hk
      rw [List.dlookup_cons_eq, Option.some.injEq] at h
      subst h
      have hl : List.kerase k (⟨k, v'⟩ :: l) = l := List.kerase_cons_eq rfl
      rw [hl, List.map_cons, List.sum_cons]
    · rw [List.dlookup_cons_ne _ _ hk] at h
      have hl : List.kerase k (⟨k', v'⟩ :: l) = ⟨k', v'⟩ :: l.kerase k := List.kerase_cons_ne hk
      rw [hl, List.map_cons, List.map_cons, List.sum_cons, List.sum_cons, ih h, add_left_comm]

/-- A present row contributes its own share, the others the rest. -/
theorem total_of_lookup (f : K → V → M) {t : Table K V} {k : K} {v : V}
    (h : t.lookup k = some v) : total f t = f k v + total f (t.erase k) :=
  sum_kerase f t.entries k v h

theorem erase_of_lookup_none {t : Table K V} {k : K} (h : t.lookup k = none) : t.erase k = t := by
  apply AList.ext
  exact List.kerase_of_notMem_keys (AList.lookup_eq_none.mp h)

theorem total_insert (f : K → V → M) (t : Table K V) (k : K) (v : V) :
    total f (t.insert k v) = f k v + total f (t.erase k) := by
  unfold total
  rw [AList.entries_insert, List.map_cons, List.sum_cons]
  rfl

/-- Inserting under a new key adds the row's share. -/
theorem total_insert_new (f : K → V → M) {t : Table K V} {k : K} (v : V)
    (h : t.lookup k = none) : total f (t.insert k v) = f k v + total f t := by
  rw [total_insert, erase_of_lookup_none h]

/-- Erasing a present row takes its share away. -/
theorem total_erase {M : Type*} [AddCommGroup M] (f : K → V → M) {t : Table K V} {k : K} {v : V}
    (h : t.lookup k = some v) : total f (t.erase k) = total f t - f k v := by
  rw [total_of_lookup f h, add_sub_cancel_left]

/-- Replacing a present row trades its share for the new one. -/
theorem total_replace {M : Type*} [AddCommGroup M] (f : K → V → M) {t : Table K V} {k : K}
    {v : V} (v' : V) (h : t.lookup k = some v) :
    total f (t.insert k v') = total f t + (f k v' - f k v) := by
  rw [total_insert, total_erase f h, add_sub_left_comm]

theorem erase_insert (t : Table K V) (k : K) (v : V) : (t.insert k v).erase k = t.erase k := by
  apply AList.ext
  have hcons : (List.kerase k (t.insert k v).entries) = List.kerase k t.entries := by
    rw [AList.entries_insert]
    exact List.kerase_cons_eq rfl
  exact hcons

theorem lookup_erase_eq {t : Table K V} (k k' : K) :
    (t.erase k).lookup k' = if k' = k then none else t.lookup k' := by
  split
  · rename_i h
    subst h
    exact AList.lookup_erase _ _
  · rename_i h
    exact AList.lookup_erase_ne h

theorem lookup_insert_eq {t : Table K V} (k k' : K) (v : V) :
    (t.insert k v).lookup k' = if k' = k then some v else t.lookup k' := by
  split
  · rename_i h
    subst h
    exact AList.lookup_insert _
  · rename_i h
    exact AList.lookup_insert_ne h

/-- The rows that `f` keeps. -/
def filterRows (f : K → V → Bool) (t : Table K V) : Table K V :=
  ⟨t.entries.filter fun e => f e.1 e.2, t.nodupKeys.sublist List.filter_sublist⟩

theorem lookup_eq_some_iff {t : Table K V} {k : K} {v : V} :
    t.lookup k = some v ↔ ⟨k, v⟩ ∈ t.entries :=
  List.mem_dlookup_iff t.nodupKeys

theorem lookup_filterRows (f : K → V → Bool) (t : Table K V) (k : K) :
    (t.filterRows f).lookup k = (t.lookup k).filter (f k) := by
  apply Option.ext
  intro v
  rw [lookup_eq_some_iff, Option.filter_eq_some_iff, lookup_eq_some_iff]
  exact List.mem_filter

/-- The rows that `f` has a value for, with that value. -/
def mapRows {W : Type*} (f : V → Option W) (t : Table K V) : Table K W :=
  ⟨t.entries.filterMap fun e => (f e.2).map (Sigma.mk e.1), by
    have hkeys : ∀ l : List (Sigma fun _ : K => V),
        (l.filterMap fun e => (f e.2).map (Sigma.mk (β := fun _ => W) e.1)).keys.Sublist l.keys := by
      intro l
      induction l with
      | nil => exact List.Sublist.slnil
      | cons e l ih =>
        cases he : f e.2 with
        | none =>
          rw [List.filterMap_cons_none (by rw [he]; rfl)]
          exact ih.cons _
        | some w =>
          rw [List.filterMap_cons_some (b := ⟨e.1, w⟩) (by rw [he]; rfl)]
          exact ih.cons_cons e.1
    exact List.Nodup.sublist (hkeys t.entries) t.nodupKeys⟩

theorem lookup_mapRows {W : Type*} (f : V → Option W) (t : Table K V) (k : K) :
    (t.mapRows f).lookup k = (t.lookup k).bind f := by
  apply Option.ext
  intro w
  have hmem : (⟨k, w⟩ : Sigma fun _ : K => W) ∈ (t.mapRows f).entries ↔
      ∃ e ∈ t.entries, (f e.2).map (Sigma.mk (β := fun _ => W) e.1) = some ⟨k, w⟩ :=
    List.mem_filterMap
  rw [lookup_eq_some_iff, hmem, Option.bind_eq_some_iff]
  constructor
  · intro ⟨e, he, hw⟩
    obtain ⟨w', hw', heq⟩ := Option.map_eq_some_iff.mp hw
    cases heq
    exact ⟨e.2, lookup_eq_some_iff.mpr he, hw'⟩
  · intro ⟨v, hv, hw⟩
    exact ⟨⟨k, v⟩, lookup_eq_some_iff.mp hv, by rw [hw]; rfl⟩

/-- The total of the rows whose share is constantly zero is zero. -/
theorem total_eq_zero {f : K → V → M} {t : Table K V}
    (h : ∀ k v, t.lookup k = some v → f k v = 0) : total f t = 0 := by
  unfold total
  apply List.sum_eq_zero
  intro x hx
  obtain ⟨e, he, rfl⟩ := List.mem_map.mp hx
  exact h e.1 e.2 ((List.mem_dlookup_iff t.nodupKeys).mpr he)

theorem total_nonneg {f : K → V → ℤ} {t : Table K V}
    (hpos : ∀ k v, t.lookup k = some v → 0 ≤ f k v) : 0 ≤ total f t := by
  unfold total
  apply List.sum_nonneg
  intro x hx
  obtain ⟨e, he, rfl⟩ := List.mem_map.mp hx
  exact hpos e.1 e.2 ((List.mem_dlookup_iff t.nodupKeys).mpr he)

/-- One row's share is no more than the total. -/
theorem le_total (f : K → V → ℤ) {t : Table K V}
    (hpos : ∀ k v, t.lookup k = some v → 0 ≤ f k v) {k : K} {v : V} (h : t.lookup k = some v) :
    f k v ≤ total f t := by
  rw [total_of_lookup f h]
  have hrest : 0 ≤ total f (t.erase k) := by
    refine total_nonneg fun k' v' hk' => ?_
    rw [lookup_erase_eq] at hk'
    split at hk'
    · simp at hk'
    · exact hpos k' v' hk'
  omega

/-- Over nonnegative rows, the values under any finite set of keys add up to at most the total. -/
theorem sum_getD_le_total {t : Table K ℤ} (hpos : ∀ k v, t.lookup k = some v → 0 ≤ v)
    (F : Finset K) : ∑ k ∈ F, (t.lookup k).getD 0 ≤ total (fun _ v => v) t := by
  induction F using Finset.induction_on generalizing t with
  | empty =>
    rw [Finset.sum_empty]
    exact total_nonneg hpos
  | insert k F hk ih =>
    -- the row under `k` is counted on its own and erased before the rest of the keys is
    have hrest : ∑ x ∈ F, (t.lookup x).getD 0 = ∑ x ∈ F, ((t.erase k).lookup x).getD 0 := by
      apply Finset.sum_congr rfl
      intro x hx
      have hxk : x ≠ k := fun he => hk (he ▸ hx)
      rw [lookup_erase_eq, if_neg hxk]
    have herase : ∀ x v, (t.erase k).lookup x = some v → 0 ≤ v := by
      intro x v hx
      rw [lookup_erase_eq] at hx
      split at hx
      · simp at hx
      · exact hpos x v hx
    have hle := ih herase
    rw [Finset.sum_insert hk, hrest]
    cases hv : t.lookup k with
    | none =>
      rw [erase_of_lookup_none hv] at hle ⊢
      simpa using hle
    | some v =>
      rw [total_of_lookup _ hv]
      simpa using hle

end Table

end Reasoning
