import Mathlib.Data.List.Basic
import Mathlib.Tactic.Ring

/-!
# LEB128 integers

`U N` and `S N` are the productions `uN` and `sN` of the WebAssembly binary format.  Each is the
sequences of at most `⌈N / 7⌉` bytes, all but the last of which continue, whose value fits `N`
bits (`u_iff`, `s_iff`): that the unused bits of the last byte are zero, or a sign extension, is
the same thing as the value being in range.
-/

namespace Reasoning.Leb128

/-- `uN`: its bytes and its value. -/
inductive U : ℕ → List UInt8 → ℕ → Prop
  | last {N : ℕ} {b : UInt8} (hb : b.toNat < 2 ^ 7) (hN : b.toNat < 2 ^ N) : U N [b] b.toNat
  | more {N m : ℕ} {b : UInt8} {bs : List UInt8} (hb : 2 ^ 7 ≤ b.toNat) (hN : 7 < N)
      (hbs : U (N - 7) bs m) : U N (b :: bs) (2 ^ 7 * m + (b.toNat - 2 ^ 7))

/-- `sN`: its bytes and its value. -/
inductive S : ℕ → List UInt8 → ℤ → Prop
  | pos {N : ℕ} {b : UInt8} (hb : b.toNat < 2 ^ 6) (hN : b.toNat < 2 ^ (N - 1)) : S N [b] b.toNat
  | neg {N : ℕ} {b : UInt8} (hb : 2 ^ 6 ≤ b.toNat) (hb' : b.toNat < 2 ^ 7)
      (hN : (2 : ℤ) ^ 7 - 2 ^ (N - 1) ≤ b.toNat) : S N [b] (b.toNat - 2 ^ 7)
  | more {N : ℕ} {m : ℤ} {b : UInt8} {bs : List UInt8} (hb : 2 ^ 7 ≤ b.toNat) (hN : 7 < N)
      (hbs : S (N - 7) bs m) : S N (b :: bs) (2 ^ 7 * m + (b.toNat - 2 ^ 7))

theorem U.mono {N N' v : ℕ} {bs : List UInt8} (h : U N bs v) (hN : N ≤ N') : U N' bs v := by
  induction h generalizing N' with
  | last hb hlt => exact .last hb (hlt.trans_le (Nat.pow_le_pow_right (by decide) hN))
  | more hb hlt _ ih => exact .more hb (hlt.trans_le hN) (ih (Nat.sub_le_sub_right hN 7))

/-- Every byte but the last continues. -/
inductive Ends : List UInt8 → Prop
  | last {b : UInt8} (hb : b.toNat < 128) : Ends [b]
  | more {b : UInt8} {bs : List UInt8} (hb : 128 ≤ b.toNat) (hbs : Ends bs) : Ends (b :: bs)

/-- Seven bits a byte, the least significant first. -/
def groups : List UInt8 → ℕ
  | [] => 0
  | b :: bs => b.toNat % 128 + 128 * groups bs

/-- `groups` with the last byte's bit 6 as the sign. -/
def signed : List UInt8 → ℤ
  | [] => 0
  | [b] => if b.toNat % 128 < 64 then (b.toNat % 128 : ℕ) else (b.toNat % 128 : ℕ) - 128
  | b :: bs => (b.toNat % 128 : ℕ) + 128 * signed bs

/-! ## Bytes that end, and bytes that do not -/

theorem Ends.ne_nil {bs : List UInt8} (h : Ends bs) : bs ≠ [] := by
  cases h <;> simp

theorem signed_cons {b : UInt8} {bs : List UInt8} (h : Ends bs) :
    signed (b :: bs) = (b.toNat % 128 : ℕ) + 128 * signed bs := by
  cases h <;> rfl

/-- Within the first `k` bytes a sequence ends, goes on, or runs out. -/
theorem ends_cases (k : ℕ) (hk : 0 < k) (bs : List UInt8) :
    (∃ pre rest, bs = pre ++ rest ∧ Ends pre ∧ pre.length ≤ k) ∨
    (k ≤ bs.length ∧ ∀ b ∈ bs.take k, 128 ≤ b.toNat) ∨
    (bs.length < k ∧ ∀ b ∈ bs, 128 ≤ b.toNat) := by
  induction bs generalizing k with
  | nil => exact .inr (.inr ⟨hk, by simp⟩)
  | cons b bs ih =>
    by_cases hb : b.toNat < 128
    · exact .inl ⟨[b], bs, rfl, .last hb, hk⟩
    · have hb' : 128 ≤ b.toNat := by omega
      obtain rfl | hk' : k = 1 ∨ 0 < k - 1 := by omega
      · right; left
        exact ⟨by simp, by simpa using hb'⟩
      · rcases ih (k - 1) hk' with ⟨pre, rest, rfl, hends, hlen⟩ | ⟨hlen, hall⟩ | ⟨hlen, hall⟩
        · left
          exact ⟨b :: pre, rest, rfl, .more hb' hends, by rw [List.length_cons]; omega⟩
        · right; left
          refine ⟨by rw [List.length_cons]; omega, ?_⟩
          rw [show k = k - 1 + 1 by omega, List.take_succ_cons]
          simpa using ⟨hb', hall⟩
        · right; right
          exact ⟨by rw [List.length_cons]; omega, by simpa using ⟨hb', hall⟩⟩

/-! ## The productions as ranges -/

theorem two_pow_split {N : ℕ} (hN : 7 ≤ N) : 2 ^ N = 128 * 2 ^ (N - 7) := by
  rw [show (128 : ℕ) = 2 ^ 7 from rfl, ← pow_add]
  congr 1
  omega

theorem u_iff {N : ℕ} (hN : 0 < N) {bs : List UInt8} {v : ℕ} :
    U N bs v ↔ Ends bs ∧ bs.length ≤ (N + 6) / 7 ∧ v = groups bs ∧ v < 2 ^ N := by
  constructor
  · intro h
    induction h with
    | @last N b hb hlt =>
      refine ⟨.last hb, by simp; omega, ?_, hlt⟩
      simp only [groups]
      omega
    | @more N m b bs hb hN' _ ih =>
      obtain ⟨hends, hlen, rfl, hlt⟩ := ih (by omega)
      refine ⟨.more hb hends, by rw [List.length_cons]; omega, ?_, ?_⟩
      · have hb' := b.toNat_lt
        simp only [groups]
        omega
      · have hb' := b.toNat_lt
        have hsplit := two_pow_split hN'.le
        omega
  · rintro ⟨hends, hlen, rfl, hlt⟩
    induction hends generalizing N with
    | @last b hb =>
      have hval : groups [b] = b.toNat := by simp only [groups]; omega
      rw [hval] at hlt ⊢
      exact .last hb hlt
    | @more b bs hb hends ih =>
      have hpos := List.length_pos_of_ne_nil hends.ne_nil
      rw [List.length_cons] at hlen
      have hN' : 7 < N := by omega
      have hb' := b.toNat_lt
      have hsplit := two_pow_split hN'.le
      have hval : groups (b :: bs) = 2 ^ 7 * groups bs + (b.toNat - 2 ^ 7) := by
        simp only [groups]
        omega
      rw [hval] at hlt ⊢
      exact .more hb hN' (ih (by omega) (by omega) (by omega))

theorem s_iff {N : ℕ} (hN : 0 < N) {bs : List UInt8} {v : ℤ} :
    S N bs v ↔ Ends bs ∧ bs.length ≤ (N + 6) / 7 ∧ v = signed bs ∧
      -2 ^ (N - 1) ≤ v ∧ v < 2 ^ (N - 1) := by
  constructor
  · intro h
    induction h with
    | @pos N b hb hlt =>
      have hlt' : ((b.toNat : ℕ) : ℤ) < 2 ^ (N - 1) := by exact_mod_cast hlt
      refine ⟨.last (by omega), by simp; omega, ?_, by omega, hlt'⟩
      rw [signed, if_pos (by omega)]
      omega
    | @neg N b hb hb' hge =>
      have hpow : (0 : ℤ) < 2 ^ (N - 1) := Int.pow_pos (by decide)
      refine ⟨.last hb', by simp; omega, ?_, by omega, by omega⟩
      rw [signed, if_neg (by omega)]
      omega
    | @more N m b bs hb hN' _ ih =>
      obtain ⟨hends, hlen, rfl, hge, hlt⟩ := ih (by omega)
      have hb' := b.toNat_lt
      have hsplit : (2 : ℤ) ^ (N - 1) = 128 * 2 ^ (N - 7 - 1) := by
        have h := two_pow_split (N := N - 1) (by omega)
        rw [show N - 1 - 7 = N - 7 - 1 by omega] at h
        exact_mod_cast h
      refine ⟨.more hb hends, by rw [List.length_cons]; omega, ?_, by omega, by omega⟩
      rw [signed_cons hends]
      omega
  · rintro ⟨hends, hlen, rfl, hge, hlt⟩
    induction hends generalizing N with
    | @last b hb =>
      rw [signed] at hge hlt ⊢
      split at hge
      · rename_i hsmall
        rw [if_pos hsmall] at hlt ⊢
        rw [Nat.mod_eq_of_lt hb] at hlt hsmall ⊢
        exact .pos hsmall (by exact_mod_cast hlt)
      · rename_i hbig
        rw [if_neg hbig] at hlt ⊢
        rw [Nat.mod_eq_of_lt hb] at hge hbig ⊢
        exact .neg (by omega) hb (by omega)
    | @more b bs hb hends ih =>
      have hpos := List.length_pos_of_ne_nil hends.ne_nil
      rw [List.length_cons] at hlen
      have hb' := b.toNat_lt
      have hval : signed (b :: bs) = 2 ^ 7 * signed bs + (b.toNat - 2 ^ 7) := by
        rw [signed_cons hends]
        omega
      have hsplit : (2 : ℤ) ^ (N - 1) = 128 * 2 ^ (N - 7 - 1) := by
        have h := two_pow_split (N := N - 1) (by omega)
        rw [show N - 1 - 7 = N - 7 - 1 by omega] at h
        exact_mod_cast h
      rw [hval] at hge hlt ⊢
      exact .more hb (by omega) (ih (by omega) (by omega) (by omega) (by omega))

end Reasoning.Leb128
