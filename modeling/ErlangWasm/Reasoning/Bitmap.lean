import Mathlib.Data.Nat.Bitwise
import Mathlib.Data.Finset.Card

/-!
# A bitmap of 64-bit words

Of the bits of a fixed number of words each can be set and tested; a bit past the last word is
neither.
-/

namespace Reasoning

structure Bitmap where
  words : List ℕ

namespace Bitmap

def new (n : ℕ) : Bitmap := ⟨List.replicate n 0⟩

def size (m : Bitmap) : ℕ := m.words.length

/-- Sets bit `i`, with whether it was clear before; `none` past the last word. -/
def set (m : Bitmap) (i : ℕ) : Option (Bitmap × Bool) :=
  match m.words[i >>> 6]? with
  | none => none
  | some current =>
      let bit := 1 <<< (i &&& 63)
      if current &&& bit = 0 then some (⟨m.words.set (i >>> 6) (current ||| bit)⟩, true)
      else some (m, false)

def test (m : Bitmap) (i : ℕ) : Option Bool :=
  m.words[i >>> 6]?.map fun word => word &&& 1 <<< (i &&& 63) ≠ 0

variable {m m' : Bitmap} {i j : ℕ} {fresh : Bool}

theorem word_eq (i : ℕ) : i >>> 6 = i / 64 := Nat.shiftRight_eq_div_pow i 6

theorem bit_eq (i : ℕ) : i &&& 63 = i % 64 := Nat.and_two_pow_sub_one_eq_mod i 6

theorem and_bit (word k : ℕ) : word &&& 1 <<< k = 0 ↔ word.testBit k = false := by
  constructor
  · intro h
    have hbit := congrArg (fun n => n.testBit k) h
    simpa [Nat.testBit_and, Nat.one_shiftLeft, Nat.testBit_two_pow] using hbit
  · intro h
    apply Nat.eq_of_testBit_eq
    intro j
    rw [Nat.testBit_and, Nat.one_shiftLeft, Nat.testBit_two_pow, Nat.zero_testBit]
    by_cases hj : k = j
    · rw [← hj, h]
      rfl
    · simp [hj]

theorem test_eq (m : Bitmap) (i : ℕ) :
    m.test i = m.words[i / 64]?.map fun word => word.testBit (i % 64) := by
  unfold test
  rw [word_eq, bit_eq]
  congr 1
  funext word
  cases hbit : word.testBit (i % 64) with
  | false => simp [(and_bit word (i % 64)).mpr hbit]
  | true =>
    have hne : ¬word &&& 1 <<< (i % 64) = 0 := by
      rw [and_bit, hbit]
      simp
    simp [hne]

theorem test_isSome : (m.test i).isSome ↔ i / 64 < m.size := by
  rw [test_eq, Option.isSome_map, Option.isSome_iff_exists]
  constructor
  · rintro ⟨word, hword⟩
    exact (List.getElem?_eq_some_iff.mp hword).1
  · intro hlt
    exact ⟨_, List.getElem?_eq_getElem hlt⟩

theorem test_new (n i : ℕ) (hi : i / 64 < n) : (new n).test i = some false := by
  rw [test_eq]
  show (List.replicate n 0)[i / 64]?.map _ = _
  rw [List.getElem?_replicate, if_pos hi, Option.map_some, Nat.zero_testBit]

theorem size_new (n : ℕ) : (new n).size = n := List.length_replicate

theorem set_eq_none : m.set i = none ↔ m.size ≤ i / 64 := by
  unfold set
  rw [word_eq]
  cases hword : m.words[i / 64]? with
  | none => simpa [size] using List.getElem?_eq_none_iff.mp hword
  | some word =>
    have hlt := (List.getElem?_eq_some_iff.mp hword).1
    have hin : ¬m.size ≤ i / 64 := Nat.not_le.mpr hlt
    simp only [hin, iff_false]
    split <;> simp

theorem set_fresh (h : m.set i = some (m', fresh)) : m.test i = some (!fresh) := by
  unfold set at h
  rw [test_eq]
  rw [word_eq, bit_eq] at h
  cases hword : m.words[i / 64]? with
  | none =>
    rw [hword] at h
    cases h
  | some word =>
    rw [hword] at h
    simp only at h
    rw [Option.map_some, Option.some.injEq]
    split at h
    · rename_i hclear
      cases h
      exact (and_bit _ _).mp hclear
    · rename_i hset
      cases h
      rw [and_bit] at hset
      simpa using hset

theorem set_size (h : m.set i = some (m', fresh)) : m'.size = m.size := by
  unfold set at h
  split at h
  · cases h
  · simp only at h
    split at h
    · cases h
      exact List.length_set
    · cases h
      rfl

/-- Setting a bit sets that bit. -/
theorem test_set (h : m.set i = some (m', fresh)) (j : ℕ) :
    m'.test j = if j = i then some true else m.test j := by
  have hfresh := set_fresh h
  unfold set at h
  rw [word_eq, bit_eq] at h
  cases hword : m.words[i / 64]? with
  | none =>
    rw [hword] at h
    cases h
  | some word =>
    rw [hword] at h
    simp only at h
    split at h
    · cases h
      have hlt := (List.getElem?_eq_some_iff.mp hword).1
      rw [test_eq, test_eq]
      show (m.words.set (i / 64) (word ||| 1 <<< (i % 64)))[j / 64]?.map _ = _
      rw [List.getElem?_set]
      by_cases hsame : i / 64 = j / 64
      · rw [if_pos hsame, if_pos hlt, Option.map_some, Nat.testBit_or, Nat.one_shiftLeft,
          Nat.testBit_two_pow, ← hsame, hword, Option.map_some]
        by_cases hj : j = i
        · simp [hj]
        · have hbit : i % 64 ≠ j % 64 := by omega
          rw [if_neg hj]
          simp [hbit]
      · have hj : j ≠ i := by
          intro hj
          rw [hj] at hsame
          exact hsame rfl
        rw [if_neg hsame, if_neg hj]
    · cases h
      split
      · rename_i hj
        rw [hj]
        exact hfresh
      · rfl

/-- The bits that are still clear. -/
def clear (m : Bitmap) : Finset ℕ :=
  (Finset.range (64 * m.size)).filter fun i => m.test i = some false

theorem clear_set (h : m.set i = some (m', true)) : m'.clear.card < m.clear.card := by
  have hclear : m.test i = some false := set_fresh h
  have hlt : i / 64 < m.size := by
    rw [← test_isSome, hclear]
    rfl
  apply Finset.card_lt_card
  rw [Finset.ssubset_iff_of_subset]
  · refine ⟨i, ?_, ?_⟩
    · show i ∈ (Finset.range (64 * m.size)).filter _
      rw [Finset.mem_filter, Finset.mem_range]
      exact ⟨by omega, hclear⟩
    · show i ∉ (Finset.range (64 * m'.size)).filter _
      rw [Finset.mem_filter, test_set h, if_pos rfl]
      simp
  · intro j hj
    obtain ⟨hrange, htest⟩ := Finset.mem_filter.mp hj
    rw [set_size h] at hrange
    apply Finset.mem_filter.mpr
    refine ⟨hrange, ?_⟩
    rw [test_set h] at htest
    split at htest
    · cases htest
    · exact htest

end Bitmap

end Reasoning
