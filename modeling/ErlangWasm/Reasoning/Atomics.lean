import Mathlib.Algebra.Ring.Nat

/-!
# Unsigned 64-bit cells

The arithmetic of an `atomics` array made with `{signed, false}`: additions and subtractions wrap
at `2 ^ 64`.
-/

namespace Reasoning.Atomics

/-- One past the largest value a cell holds. -/
@[irreducible] def wordSize : ℕ := 2 ^ 64

/-- `atomics:add_get/3` on a cell holding `c`. -/
def addGet (c n : ℕ) : ℕ := (c + n) % wordSize

/-- `atomics:sub_get/3` on a cell holding `c`. -/
def subGet (c n : ℕ) : ℕ := (c + (wordSize - n % wordSize)) % wordSize

theorem addGet_of_lt {c n : ℕ} (h : c + n < wordSize) : addGet c n = c + n :=
  Nat.mod_eq_of_lt h

theorem subGet_of_le {c n : ℕ} (hn : n ≤ c) (hc : c < wordSize) : subGet c n = c - n := by
  unfold subGet
  rw [Nat.mod_eq_of_lt (by omega : n < wordSize),
    show c + (wordSize - n) = (c - n) + wordSize by omega, Nat.add_mod_right,
    Nat.mod_eq_of_lt (by omega)]

end Reasoning.Atomics
