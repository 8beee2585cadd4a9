import Mathlib.Data.List.Infix

/-!
# The occurrences of a pattern that a search from the left finds

The search goes on behind each occurrence it finds, so it misses those that overlap one found
before.  `occurrences m s` are the places where those it finds begin.
-/

namespace Reasoning.Occurrences

variable {α : Type*} [DecidableEq α] {m s t : List α} {i j k pos : ℕ}

/-- The search at `pos`, which `skip` elements of the last occurrence found are still before. -/
def search (m : List α) : (skip pos : ℕ) → List α → List ℕ
  | _, _, [] => []
  | skip + 1, pos, _ :: s => search m skip (pos + 1) s
  | 0, pos, x :: s =>
    if m <+: x :: s then pos :: search m (m.length - 1) (pos + 1) s else search m 0 (pos + 1) s

def occurrences (m s : List α) : List ℕ := search m 0 0 s

/-! ## What is found -/

theorem search_skip (m : List α) (k pos : ℕ) (s : List α) :
    search m k pos s = search m 0 (pos + k) (s.drop k) := by
  induction s generalizing k pos with
  | nil => cases k <;> simp [search]
  | cons x s ih =>
    cases k with
    | zero => rfl
    | succ k => rw [search, ih, List.drop_succ_cons, Nat.add_assoc, Nat.add_comm 1 k]

/-- Where the pattern occurs the search goes on behind it. -/
theorem search_of_isPrefix (hm : m ≠ []) (pos : ℕ) (h : m <+: s) :
    search m 0 pos s = pos :: search m 0 (pos + m.length) (s.drop m.length) := by
  obtain ⟨r, rfl⟩ := h
  obtain ⟨x, m', rfl⟩ := List.exists_cons_of_ne_nil hm
  rw [List.cons_append, search, 
    if_pos (show x :: m' <+: x :: (m' ++ r) from List.prefix_append (x :: m') r), search_skip]
  simp only [List.length_cons, Nat.add_sub_cancel, List.drop_succ_cons]
  rw [Nat.add_assoc, Nat.add_comm 1]

theorem search_of_not_isPrefix (pos : ℕ) (h : ¬ m <+: s) :
    search m 0 pos s = search m 0 (pos + 1) s.tail := by
  cases s with
  | nil => rfl
  | cons x s => rw [search, if_neg h, List.tail_cons]

/-- What is found is an occurrence. -/
theorem isPrefix_of_mem_search (h : i ∈ search m k pos s) :
    pos + k ≤ i ∧ m <+: s.drop (i - pos) := by
  induction s generalizing k pos with
  | nil => cases k <;> cases h
  | cons x s ih =>
    have hdrop : pos + 1 ≤ i → (x :: s).drop (i - pos) = s.drop (i - (pos + 1)) := by
      intro hle
      rw [show i - pos = i - (pos + 1) + 1 by omega, List.drop_succ_cons]
    cases k with
    | succ k =>
      obtain ⟨hle, hocc⟩ := ih h
      exact ⟨by omega, by rwa [hdrop (by omega)]⟩
    | zero =>
      rw [search] at h
      split at h
      · rename_i hpre
        rcases List.mem_cons.mp h with rfl | h
        · exact ⟨Nat.le_refl _, by rwa [Nat.sub_self]⟩
        · obtain ⟨hle, hocc⟩ := ih h
          exact ⟨by omega, by rwa [hdrop (by omega)]⟩
      · obtain ⟨hle, hocc⟩ := ih h
        exact ⟨by omega, by rwa [hdrop (by omega)]⟩

/-- No two that are found overlap. -/
theorem pairwise_search (m : List α) (k pos : ℕ) (s : List α) :
    (search m k pos s).Pairwise fun i j => i + m.length ≤ j := by
  induction s generalizing k pos with
  | nil => cases k <;> exact .nil
  | cons x s ih =>
    cases k with
    | succ k => exact ih k (pos + 1)
    | zero =>
      rw [search]
      split
      · refine List.pairwise_cons.mpr ⟨fun j hj => ?_, ih _ _⟩
        have hle := (isPrefix_of_mem_search hj).1
        omega
      · exact ih 0 (pos + 1)

/-- Every occurrence is found, or overlaps one that is found before it. -/
theorem exists_mem_search (pos : ℕ) (hm : m ≠ []) (h : m <+: s.drop i) (hi : k ≤ i) :
    ∃ j ∈ search m k pos s, j ≤ pos + i ∧ pos + i < j + m.length := by
  have hpos : 0 < m.length := List.length_pos_iff.mpr hm
  induction s generalizing k pos i with
  | nil => exact absurd (List.eq_nil_of_prefix_nil (by simpa using h)) hm
  | cons x s ih =>
    cases k with
    | succ k =>
      obtain ⟨i, rfl⟩ : ∃ i', i = i' + 1 := ⟨i - 1, by omega⟩
      obtain ⟨j, hj, hle, hlt⟩ := ih (pos + 1) (by simpa using h) (Nat.le_of_succ_le_succ hi)
      exact ⟨j, hj, by omega, by omega⟩
    | zero =>
      rw [search]
      by_cases hhere : m <+: x :: s
      · rw [if_pos hhere]
        by_cases hnear : i < m.length
        · exact ⟨pos, List.mem_cons_self, by omega, by omega⟩
        obtain ⟨i, rfl⟩ : ∃ i', i = i' + 1 := ⟨i - 1, by omega⟩
        obtain ⟨j, hj, hle, hlt⟩ := ih (k := m.length - 1) (pos + 1) (by simpa using h) (by omega)
        exact ⟨j, List.mem_cons_of_mem _ hj, by omega, by omega⟩
      · rw [if_neg hhere]
        obtain ⟨i, rfl⟩ : ∃ i', i = i' + 1 := by
          refine ⟨i - 1, ?_⟩
          have hne : i ≠ 0 := by
            rintro rfl
            exact hhere h
          omega
        obtain ⟨j, hj, hle, hlt⟩ := ih (pos + 1) (by simpa using h) (Nat.zero_le _)
        exact ⟨j, hj, by omega, by omega⟩

theorem mem_occurrences_isPrefix (h : i ∈ occurrences m s) : m <+: s.drop i :=
  (isPrefix_of_mem_search h).2

theorem exists_mem_occurrences (hm : m ≠ []) (h : m <+: s.drop i) :
    ∃ j ∈ occurrences m s, j ≤ i ∧ i < j + m.length := by
  obtain ⟨j, hj, hle, hlt⟩ := exists_mem_search 0 hm h (Nat.zero_le i)
  exact ⟨j, hj, by omega, by omega⟩

/-! ## The last that is found -/

/-- What no occurrence begins in is passed over. -/
theorem search_append (pos : ℕ) (h : ∀ i < t.length, ¬ m <+: (t ++ s).drop i) :
    search m 0 pos (t ++ s) = search m 0 (pos + t.length) s := by
  induction t generalizing pos with
  | nil => rfl
  | cons x t ih =>
    have hhere : ¬ m <+: x :: (t ++ s) := h 0 (Nat.succ_pos _)
    have hrest : ∀ i < t.length, ¬ m <+: (t ++ s).drop i := fun i hi =>
      h (i + 1) (by simpa using hi)
    rw [List.cons_append, search_of_not_isPrefix pos hhere, List.tail_cons, ih _ hrest,
      List.length_cons, Nat.add_assoc, Nat.add_comm 1]

theorem search_eq_nil (k pos : ℕ) (h : ¬ m <:+: s) : search m k pos s = [] := by
  refine List.eq_nil_iff_forall_not_mem.mpr fun i hi => h ?_
  exact (isPrefix_of_mem_search hi).2.isInfix.trans (List.drop_suffix _ s).isInfix

omit [DecidableEq α] in
theorem exists_isPrefix_drop (h : m <:+: s) : ∃ i, m <+: s.drop i := by
  obtain ⟨t, r, rfl⟩ := h
  exact ⟨t.length, by simp [List.append_assoc]⟩

/-- None that is found begins behind the last one, and none reaches into it. -/
theorem le_of_getLast? (hj : j ∈ occurrences m s) (h : (occurrences m s).getLast? = some i) :
    j = i ∨ j + m.length ≤ i := by
  obtain ⟨init, hinit⟩ := List.getLast?_eq_some_iff.mp h
  have hpair := pairwise_search m 0 0 s
  change (occurrences m s).Pairwise _ at hpair
  rw [hinit] at hj hpair
  rcases List.mem_append.mp hj with hj | hj
  · exact .inr ((List.pairwise_append.mp hpair).2.2 j hj i (List.mem_singleton_self i))
  · exact .inl (List.mem_singleton.mp hj)

/-- Behind a text without the pattern, the pattern is the last that is found where no occurrence
begins in the text, and none is left in the rest. -/
theorem getLast?_occurrences_iff {r : List α} (ht : ¬ m <:+: t) :
    (occurrences m (t ++ m ++ r)).getLast? = some t.length ↔
      (∀ i < t.length, ¬ m <+: (t ++ m).drop i) ∧ ¬ m <:+: r := by
  have hm : m ≠ [] := by
    rintro rfl
    exact ht List.nil_infix
  have hpos : 0 < m.length := List.length_pos_iff.mpr hm
  have hdrop : ∀ i ≤ t.length, (t ++ m ++ r).drop i = (t ++ m).drop i ++ r := fun i hi =>
    List.drop_append_of_le_length (by rw [List.length_append]; omega)
  constructor
  · intro h
    have hfound : t.length ∈ occurrences m (t ++ m ++ r) := List.mem_of_getLast? h
    refine ⟨fun i hi hocc => ?_, fun hr => ?_⟩
    · -- the one that begins in the text hides the one behind it
      have hocc' : m <+: (t ++ m ++ r).drop i := by
        rw [hdrop i hi.le]
        exact hocc.trans (List.prefix_append _ r)
      obtain ⟨j, hj, hle, hlt⟩ := exists_mem_occurrences hm hocc'
      rcases le_of_getLast? hj h with rfl | hbefore
      · omega
      refine ht ((?_ : m <+: t.drop j).isInfix.trans (List.drop_suffix j t).isInfix)
      have hpre := mem_occurrences_isPrefix hj
      rw [List.append_assoc, List.drop_append_of_le_length (by omega)] at hpre
      exact List.prefix_of_prefix_length_le hpre (List.prefix_append _ _)
        (by rw [List.length_drop]; omega)
    · obtain ⟨i, hi⟩ := exists_isPrefix_drop hr
      have hocc : m <+: (t ++ m ++ r).drop (t.length + m.length + i) := by
        rwa [← List.drop_drop, ← List.length_append, List.drop_left]
      obtain ⟨j, hj, hle, hlt⟩ := exists_mem_occurrences hm hocc
      rcases le_of_getLast? hj h with rfl | hbefore <;> omega
  · rintro ⟨hbefore, hafter⟩
    have hstart : ∀ i < t.length, ¬ m <+: (t ++ (m ++ r)).drop i := by
      intro i hi hocc
      refine hbefore i hi ?_
      rw [← List.append_assoc, hdrop i hi.le] at hocc
      exact List.prefix_of_prefix_length_le hocc (List.prefix_append _ r)
        (by rw [List.length_drop, List.length_append]; omega)
    unfold occurrences
    rw [List.append_assoc, search_append 0 hstart,
      search_of_isPrefix hm _ (List.prefix_append m r), List.drop_left, search_eq_nil _ _ hafter,
      Nat.zero_add]
    rfl

end Reasoning.Occurrences
