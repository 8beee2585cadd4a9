import ErlangWasm.Reasoning.Ieee
import ErlangWasm.Snapshot.Term

/-!
# Runtime floats and their bits

A finite value is an Erlang float, an infinity an atom, and a NaN its sign and payload.
-/

namespace ErlangWasm.Num

open Reasoning.Ieee
open Snapshot (Double)

/-- `f32()` and `f64()`. -/
inductive RuntimeFloat
  | finite (f : Double)
  | infinity
  | negInfinity
  | nan (sign payload : ℕ)
  deriving DecidableEq

/-- `<<F:32/float>>`, on bits whose exponent is not all ones. -/
def single (bits : ℕ) (h : bits / 2 ^ 23 % 2 ^ 8 ≠ 255) : Double :=
  ⟨widen bits, widen_lt h, widen_finite h⟩

/-- `<<F:64/float>>`, on bits whose exponent is not all ones. -/
def double (bits : ℕ) (hlt : bits < 256 ^ 8) (h : bits / 2 ^ 52 % 2 ^ 11 ≠ 2047) : Double :=
  ⟨bits, hlt, h⟩

def f32FromBits (bits : ℕ) : RuntimeFloat :=
  if h : bits / 2 ^ 23 % 2 ^ 8 = 255 then
    if bits % 2 ^ 23 = 0 then
      if bits / 2 ^ 31 % 2 = 0 then .infinity else .negInfinity
    else .nan (bits / 2 ^ 31) (bits % 2 ^ 23)
  else .finite (single bits h)

/-- A float too large for a single raises. -/
def f32ToBits : RuntimeFloat → Option ℕ
  | .finite f => narrow f.bits
  | .infinity => some 0x7F800000
  | .negInfinity => some (0x80000000 ||| 0x7F800000)
  | .nan s p => some (s <<< 31 ||| 0x7F800000 ||| p)

/-- On bits that are a 64-bit pattern. -/
def f64FromBits (bits : ℕ) : RuntimeFloat :=
  if h : bits / 2 ^ 52 % 2 ^ 11 = 2047 then
    if bits % 2 ^ 52 = 0 then
      if bits / 2 ^ 63 % 2 = 0 then .infinity else .negInfinity
    else .nan (bits / 2 ^ 63) (bits % 2 ^ 52)
  else .finite (double (bits % 256 ^ 8) (Nat.mod_lt _ (by decide)) (by omega))

def f64ToBits : RuntimeFloat → ℕ
  | .finite f => f.bits
  | .infinity => 0x7FF0000000000000
  | .negInfinity => 0x8000000000000000 ||| 0x7FF0000000000000
  | .nan s p => s <<< 63 ||| 0x7FF0000000000000 ||| p

/-- Fields that do not overlap. -/
theorem or_fields {s e p n w k : ℕ} (hp : p < 2 ^ n) (he : e < 2 ^ w) (hk : k = n + w) :
    s <<< k ||| 2 ^ n * e ||| p = s * 2 ^ k + 2 ^ n * e + p := by
  subst hk
  have hlt : 2 ^ n * e < 2 ^ (n + w) := by
    rw [pow_add]
    exact Nat.mul_lt_mul_of_pos_left he (Nat.two_pow_pos n)
  rw [Nat.shiftLeft_eq, Nat.mul_comm s, ← Nat.two_pow_add_eq_or_of_lt hlt, pow_add, mul_assoc,
    ← Nat.mul_add, ← Nat.two_pow_add_eq_or_of_lt hp]

theorem nan32_fields (s : ℕ) {p : ℕ} (hp : p < 2 ^ 23) :
    s <<< 31 ||| 0x7F800000 ||| p = s * 2 ^ 31 + 0x7F800000 + p :=
  or_fields hp (show 255 < 2 ^ 8 by decide) (by decide)

theorem nan64_fields (s : ℕ) {p : ℕ} (hp : p < 2 ^ 52) :
    s <<< 63 ||| 0x7FF0000000000000 ||| p = s * 2 ^ 63 + 0x7FF0000000000000 + p :=
  or_fields hp (show 2047 < 2 ^ 11 by decide) (by decide)

theorem f32ToBits_fromBits {bits : ℕ} (h : bits < 2 ^ 32) :
    f32ToBits (f32FromBits bits) = some bits := by
  unfold f32FromBits
  split
  · split
    · split
      · show some 0x7F800000 = _
        congr 1
        omega
      · show some (0x80000000 ||| 0x7F800000) = _
        rw [show 0x80000000 ||| 0x7F800000 = 0xFF800000 by decide]
        congr 1
        omega
    · rw [f32ToBits, nan32_fields _ (Nat.mod_lt _ (by decide))]
      congr 1
      omega
  · rename_i hexp
    exact narrow_widen h hexp

theorem f64ToBits_fromBits {bits : ℕ} (h : bits < 2 ^ 64) : f64ToBits (f64FromBits bits) = bits := by
  unfold f64FromBits
  split
  · split
    · split
      · show 0x7FF0000000000000 = bits
        omega
      · show 0x8000000000000000 ||| 0x7FF0000000000000 = bits
        rw [show 0x8000000000000000 ||| 0x7FF0000000000000 = 0xFFF0000000000000 by decide]
        omega
    · rw [f64ToBits, nan64_fields _ (Nat.mod_lt _ (by decide))]
      omega
  · exact Nat.mod_eq_of_lt h

/-- The values of an `f32` and of an `f64`: what their bits are read as. -/
def IsF32 (f : RuntimeFloat) : Prop := ∃ bits < 2 ^ 32, f = f32FromBits bits

def IsF64 (f : RuntimeFloat) : Prop := ∃ bits < 2 ^ 64, f = f64FromBits bits

/-- An `f32` is written as 32 bits that are read as it. -/
theorem IsF32.toBits {f : RuntimeFloat} (h : IsF32 f) :
    ∃ bits < 2 ^ 32, f32ToBits f = some bits ∧ f32FromBits bits = f := by
  obtain ⟨bits, hlt, rfl⟩ := h
  exact ⟨bits, hlt, f32ToBits_fromBits hlt, rfl⟩

theorem IsF64.toBits {f : RuntimeFloat} (h : IsF64 f) :
    f64ToBits f < 2 ^ 64 ∧ f64FromBits (f64ToBits f) = f := by
  obtain ⟨bits, hlt, rfl⟩ := h
  rw [f64ToBits_fromBits hlt]
  exact ⟨hlt, rfl⟩

end ErlangWasm.Num
