import Mathlib.Data.Nat.Log
import Mathlib.Tactic.Ring

/-!
# Single and double precision by bits

A finite single is exactly one double (`widen`), and a double is rounded to the nearest single, ties
to even (`narrow`), where it is not too large for one.  Rounding what was widened gives it back.
-/

namespace Reasoning.Ieee

/-- The exponent and fraction fields, as a double, of a finite single's. -/
def stretch (exponent fraction : ℕ) : ℕ × ℕ :=
  if exponent ≠ 0 then (exponent + 896, fraction * 2 ^ 29)
  else if fraction ≠ 0 then
    -- a subnormal single is a normal double: its leading bit becomes the hidden one
    (fraction.log2 + 874, (fraction - 2 ^ fraction.log2) * 2 ^ (52 - fraction.log2))
  else (0, 0)

/-- The double that a finite single is. -/
def widen (bits : ℕ) : ℕ :=
  let fields := stretch (bits / 2 ^ 23 % 2 ^ 8) (bits % 2 ^ 23)
  bits / 2 ^ 31 % 2 * 2 ^ 63 + fields.1 * 2 ^ 52 + fields.2

/-- `m / 2 ^ s`, to the nearest integer, ties to even. -/
def roundShift (m s : ℕ) : ℕ :=
  if 2 ^ s < 2 * (m % 2 ^ s) ∨ (2 ^ s = 2 * (m % 2 ^ s) ∧ m / 2 ^ s % 2 = 1) then m / 2 ^ s + 1
  else m / 2 ^ s

/-- The exponent and fraction bits of the single nearest to a double, by its fields. -/
def squeeze (exponent fraction : ℕ) : ℕ :=
  if 896 < exponent then (exponent - 897) * 2 ^ 23 + roundShift (2 ^ 52 + fraction) 29
  else if exponent ≠ 0 then roundShift (2 ^ 52 + fraction) (926 - exponent)
  else roundShift fraction 925

/-- The single nearest to a finite double, unless that is an infinity. -/
def narrow (bits : ℕ) : Option ℕ :=
  let magnitude := squeeze (bits / 2 ^ 52 % 2 ^ 11) (bits % 2 ^ 52)
  if magnitude < 255 * 2 ^ 23 then some (bits / 2 ^ 63 % 2 * 2 ^ 31 + magnitude) else none

theorem roundShift_mul (m s : ℕ) : roundShift (m * 2 ^ s) s = m := by
  have hpos : 0 < 2 ^ s := Nat.two_pow_pos s
  have hmod : m * 2 ^ s % 2 ^ s = 0 := Nat.mul_mod_left m (2 ^ s)
  have hdiv : m * 2 ^ s / 2 ^ s = m := Nat.mul_div_cancel m hpos
  rw [roundShift, hmod, hdiv, if_neg]
  omega

/-- The fraction of a subnormal single below its leading bit. -/
theorem below_leading {f : ℕ} (hf : f ≠ 0) (hlt : f < 2 ^ 23) :
    f.log2 < 23 ∧ 2 ^ f.log2 ≤ f ∧ f - 2 ^ f.log2 < 2 ^ f.log2 := by
  have hlog : f.log2 < 23 := (Nat.log2_lt hf).mpr hlt
  have hlow := Nat.log2_self_le hf
  have hhigh : f < 2 ^ (f.log2 + 1) := Nat.lt_log2_self
  rw [pow_succ] at hhigh
  exact ⟨hlog, hlow, by omega⟩

theorem stretch_lt {e f : ℕ} (he : e < 255) (hf : f < 2 ^ 23) :
    (stretch e f).1 < 2047 ∧ (stretch e f).2 < 2 ^ 52 := by
  unfold stretch
  split
  · dsimp only
    omega
  · split
    · rename_i hne
      obtain ⟨hlog, -, hbelow⟩ := below_leading hne hf
      refine ⟨show f.log2 + 874 < 2047 by omega, ?_⟩
      calc (f - 2 ^ f.log2) * 2 ^ (52 - f.log2)
          < 2 ^ f.log2 * 2 ^ (52 - f.log2) :=
            Nat.mul_lt_mul_of_pos_right hbelow (Nat.two_pow_pos _)
        _ = 2 ^ 52 := pow_mul_pow_sub 2 (by omega)
    · exact ⟨by decide, by decide⟩

theorem squeeze_stretch {e f : ℕ} (hf : f < 2 ^ 23) :
    squeeze (stretch e f).1 (stretch e f).2 = e * 2 ^ 23 + f := by
  unfold stretch
  split
  · rename_i he
    have hmul : 2 ^ 52 + f * 2 ^ 29 = (2 ^ 23 + f) * 2 ^ 29 := by ring
    dsimp only
    rw [squeeze, if_pos (by omega), hmul, roundShift_mul]
    omega
  · split
    · rename_i he hne
      obtain ⟨hlog, hlow, -⟩ := below_leading hne hf
      have hshift : 926 - (f.log2 + 874) = 52 - f.log2 := by omega
      have hpow : 2 ^ f.log2 * 2 ^ (52 - f.log2) = 2 ^ 52 := pow_mul_pow_sub 2 (by omega)
      have hmul : 2 ^ 52 + (f - 2 ^ f.log2) * 2 ^ (52 - f.log2) = f * 2 ^ (52 - f.log2) := by
        rw [← hpow, ← Nat.add_mul, Nat.add_sub_of_le hlow]
      dsimp only
      rw [squeeze, if_neg (by omega), if_pos (by omega), hmul, hshift, roundShift_mul]
      omega
    · rename_i he hne
      have hround : roundShift 0 925 = 0 := by
        have hmul := roundShift_mul 0 925
        rwa [Nat.zero_mul] at hmul
      dsimp only
      rw [squeeze, if_neg (by omega), if_neg (by omega), hround]
      omega

theorem widen_fields {bits : ℕ} (h : bits / 2 ^ 23 % 2 ^ 8 ≠ 255) :
    widen bits < 256 ^ 8 ∧ widen bits / 2 ^ 63 % 2 = bits / 2 ^ 31 % 2 ∧
      widen bits / 2 ^ 52 % 2 ^ 11 = (stretch (bits / 2 ^ 23 % 2 ^ 8) (bits % 2 ^ 23)).1 ∧
      widen bits % 2 ^ 52 = (stretch (bits / 2 ^ 23 % 2 ^ 8) (bits % 2 ^ 23)).2 := by
  obtain ⟨h1, h2⟩ := @stretch_lt (bits / 2 ^ 23 % 2 ^ 8) (bits % 2 ^ 23) (by omega) (by omega)
  unfold widen
  dsimp only
  generalize stretch (bits / 2 ^ 23 % 2 ^ 8) (bits % 2 ^ 23) = fields at *
  omega

theorem widen_lt {bits : ℕ} (h : bits / 2 ^ 23 % 2 ^ 8 ≠ 255) : widen bits < 256 ^ 8 :=
  (widen_fields h).1

/-- A widened single is neither an infinity nor a NaN. -/
theorem widen_finite {bits : ℕ} (h : bits / 2 ^ 23 % 2 ^ 8 ≠ 255) :
    widen bits / 2 ^ 52 % 2 ^ 11 ≠ 2047 := by
  have hlt := @stretch_lt (bits / 2 ^ 23 % 2 ^ 8) (bits % 2 ^ 23) (by omega) (by omega)
  rw [(widen_fields h).2.2.1]
  omega

theorem narrow_widen {bits : ℕ} (hlt : bits < 2 ^ 32) (h : bits / 2 ^ 23 % 2 ^ 8 ≠ 255) :
    narrow (widen bits) = some bits := by
  obtain ⟨-, hsign, hexp, hfrac⟩ := widen_fields h
  rw [narrow, hsign, hexp, hfrac, squeeze_stretch (by omega), if_pos (by omega)]
  congr 1
  omega

end Reasoning.Ieee
